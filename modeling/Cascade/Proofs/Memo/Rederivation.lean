import Cascade.Proofs.Memo.Deriving
import Cascade.Proofs.Memo.History

/-!
The properties of a group are those of every member. They are compared when a member is added; later merges give
it other inputs and other producers, but only such with the same properties (`Carries`), so what was derived of it
then is derived of it ever after (`derive_of_member`).
-/

namespace Cascade.Memo

variable {σ κ : Type} {m n : Memo σ κ} {source : PropertySource σ}

/-- An operator over groups has these properties, as the memo knows its inputs now. Its producer was not known when
they were derived, or is the present one. -/
def Derives (m : Memo σ κ) (source : PropertySource σ) (op : LogicalOp) (inputs : List GroupId)
    (p : LogicalProperties) : Prop :=
  ∃ ps producer, List.Forall₂ (fun g q => m.logical? g = some q) inputs ps ∧ source.logical op ps producer = .ok p ∧
    (producer = none ∨ producer = m.producerProperties? op)

theorem Carries.producerProperties? (h : Carries m n) {op : LogicalOp} {q : LogicalProperties}
    (hq : m.producerProperties? op = some q) : n.producerProperties? op = some q := by
  obtain ⟨x, hx, rfl⟩ := Option.map_eq_some_iff.1 hq
  obtain ⟨g, hg, hgroup⟩ := Option.bind_eq_some_iff.1 hx
  cases op with
  | cteConsumer r =>
    obtain ⟨y, hy, hlogical⟩ := h.groups hgroup
    have hread : n.producerOf? (.cteConsumer r) = some (n.find g) := h.producers hg
    unfold Memo.producerProperties?
    rw [hread, Option.bind_some, group?_find, hy, Option.map_some, hlogical]
  | _ => cases hg

theorem forall₂_logical?_find (m : Memo σ κ) (gs : List GroupId) (ps : List LogicalProperties) :
    List.Forall₂ (fun g q => m.logical? g = some q) (gs.map m.find) ps ↔
      List.Forall₂ (fun g q => m.logical? g = some q) gs ps := by
  rw [List.forall₂_map_left_iff]
  simp only [logical?_congr (m.find_find _)]

/-- What is derived of an expression outlives merges of its inputs and of its producer. -/
theorem Derives.carried (h : Carries m n) {op : LogicalOp} {inputs others : List GroupId} {p : LogicalProperties}
    (hinputs : others.map n.find = inputs.map n.find) (hp : m.Derives source op inputs p) :
    n.Derives source op others p := by
  obtain ⟨ps, producer, hps, hp, hproducer⟩ := hp
  refine ⟨ps, producer, ?_, hp, ?_⟩
  · rw [← forall₂_logical?_find, hinputs, forall₂_logical?_find]
    exact hps.imp fun _ _ hq => logical?_mono h.toExtends hq
  · cases producer with
    | none => exact .inl rfl
    | some q =>
      have hq : m.producerProperties? op = some q := (hproducer.resolve_left (Option.some_ne_none q)).symm
      exact .inr (h.producerProperties? hq).symm

theorem SameShape.logical?_eq (k : SameShape m n) : n.logical? = m.logical? := by
  funext g
  have hget := congrArg (fun l => l[(m.find g).index]?.map Prod.snd) k.groups
  simp only [List.getElem?_map, Option.map_map] at hget
  unfold logical? group?
  rw [k.find]
  exact hget

/-- An expression has the properties of its group. -/
def Fits (m : Memo σ κ) (source : PropertySource σ) (e : MemoExpr) : Prop :=
  ∀ op, e.op = .logical op → ∃ p, m.logical? e.group = some p ∧ m.Derives source op e.inputs p

/-- A memo that compares properties, and whose expressions have those of their groups, also the removed ones. -/
structure Faithful (m : Memo σ κ) (source : PropertySource σ) : Prop where
  verify : m.verify = true
  fits : ∀ {id e}, m.expr? id = some e → m.Fits source e

theorem Fits.carried (k : Carries m n) {e f : MemoExpr} (h : m.Fits source e) (hop : f.op = e.op)
    (hgroup : n.find f.group = n.find e.group) (hinputs : f.inputs.map n.find = e.inputs.map n.find) :
    n.Fits source f := by
  intro op hlogical
  obtain ⟨p, hp, hderives⟩ := h op (hop ▸ hlogical)
  exact ⟨p, (logical?_congr hgroup).trans (logical?_mono k.toExtends hp), hderives.carried k hinputs⟩

namespace Faithful

/-- A memo stays faithful if no expressions are added but such as have the properties of their groups. -/
theorem carried (h : m.Faithful source) (k : Carries m n)
    (hexprs : ∀ {id f}, n.expr? id = some f → (∃ e, m.expr? id = some e) ∨ n.Fits source f) : n.Faithful source where
  verify := k.verify_eq.trans h.verify
  fits := by
    intro id f hf
    rcases hexprs hf with ⟨e, he⟩ | hfits
    · obtain ⟨f', hf', hop, hgroup, hinputs⟩ := k.exprs he
      obtain rfl := Option.some.inj (hf.symm.trans hf')
      exact (h.fits he).carried k hop hgroup hinputs
    · exact hfits

theorem sameShape (h : m.Faithful source) (k : SameShape m n) : n.Faithful source where
  verify := k.verify.trans h.verify
  fits := by
    intro id f hf op hop
    obtain ⟨e, he, hshape⟩ := k.expr_back hf
    obtain ⟨hgroup, hsame, hinputs, -⟩ := (exprShape_eq_iff f e).1 hshape
    obtain ⟨p, hp, ps, producer, hps, hsource, hproducer⟩ := h.fits he op (hsame ▸ hop)
    have hlogical : n.logical? = m.logical? := k.logical?_eq
    have hread : n.producerProperties? op = m.producerProperties? op := by
      have hof : n.producerOf? op = m.producerOf? op := by
        cases op with
        | cteConsumer r =>
          change (n.cteProducers.get? r.cte).map n.find = (m.cteProducers.get? r.cte).map m.find
          rw [k.producers, show n.find = m.find from funext k.find]
        | _ => rfl
      unfold producerProperties?
      rw [hof, Option.map_bind, Option.map_bind]
      exact congrArg _ hlogical
    rw [hgroup, hinputs, hlogical]
    refine ⟨p, hp, ps, producer, ?_, hsource, hread ▸ hproducer⟩
    rwa [hlogical]

/-! Copying. -/

theorem addExpr (h : m.Faithful source) {g : GroupId} {key : ExprKey}
    (hkey : ∀ op, key.op = .logical op → ∃ p, m.logical? g = some p ∧ m.Derives source op key.inputs p) :
    (m.addExpr g key).2.Faithful source := by
  have hgrows := Grows.addExpr m g key
  have hcarries : Carries m _ := hgrows.toExtends.carries rfl fun hk => hk
  refine h.carried hcarries fun {id f} hf => ?_
  rw [expr?_addExpr] at hf
  split at hf
  · right
    cases hf
    intro op hop
    obtain ⟨p, hp, hderives⟩ := hkey op hop
    exact ⟨p, logical?_mono hgrows.toExtends hp, hderives.carried hcarries rfl⟩
  · exact .inl ⟨f, hf⟩

theorem addGroup (h : m.Faithful source) (logical : LogicalProperties) (statistics : σ) :
    (m.addGroup logical statistics).2.Faithful source :=
  h.carried ((Grows.addGroup m logical statistics).toExtends.carries rfl fun hk => hk) fun hf => .inl ⟨_, hf⟩

end Faithful

theorem logical?_addGroup (c : m.Coherent) (logical : LogicalProperties) (statistics : σ) :
    (m.addGroup logical statistics).2.logical? (m.addGroup logical statistics).1 = some logical := by
  unfold logical? group?
  rw [(survives_new logical statistics c).2]
  simp [addGroup]

theorem logical?_of_group {g : GroupId} {x : Group σ} (h : m.group g = .ok x) : m.logical? g = some x.logical := by
  unfold logical?
  rw [group_ok h]
  rfl

/-- The inputs of a new expression are read as they are. -/
theorem forall₂_logical?_of_mapM {α : Type} {f : Group σ → α} {l : α → LogicalProperties}
    (hf : ∀ x, l (f x) = x.logical) {inputs : List GroupId} {as : List α}
    (h : inputs.mapM (fun g => (m.group g).map f) = .ok as) :
    List.Forall₂ (fun g q => m.logical? g = some q) inputs (as.map l) := by
  rw [List.forall₂_map_right_iff]
  refine (forall₂_of_mapM_ok h).imp fun g a ha => ?_
  obtain ⟨x, hx, rfl⟩ := exists_of_map_ok ha
  rw [hf]
  exact logical?_of_group hx

theorem derives_of_buildProperties {op : LogicalOp} {inputs : List GroupId} {built : LogicalProperties × σ}
    (h : m.buildProperties source op inputs = .ok built) : m.Derives source op inputs built.1 := by
  obtain ⟨estimates, hestimates, h⟩ := exists_of_bind_ok h
  obtain ⟨logical, hlogical, h⟩ := exists_of_bind_ok h
  obtain ⟨statistics, -, h⟩ := exists_of_bind_ok h
  cases h
  refine ⟨estimates.map Prod.fst, _, ?_, hlogical, .inr rfl⟩
  exact forall₂_logical?_of_mapM (f := fun x => (x.logical, x.statistics)) (fun _ => rfl) hestimates

/-- An alternative that is accepted has the properties of the group. -/
theorem derives_of_verifyProperties {g : GroupId} {op : LogicalOp} {inputs : List GroupId} {u : Unit}
    (h : m.verifyProperties source g op inputs = .ok u) :
    ∃ p, m.logical? g = some p ∧ m.Derives source op inputs p := by
  obtain ⟨ps, hps, h⟩ := exists_of_bind_ok h
  obtain ⟨logical, hlogical, h⟩ := exists_of_bind_ok h
  obtain ⟨expected, hexpected, h⟩ := exists_of_bind_ok h
  obtain ⟨x, hx, rfl⟩ := exists_of_map_ok hexpected
  split at h
  · rename_i heq
    subst heq
    have hinputs := forall₂_logical?_of_mapM (l := id) (fun _ => rfl) hps
    rw [List.map_id] at hinputs
    exact ⟨x.logical, logical?_of_group hx, ps, _, hinputs, hlogical, .inr rfl⟩
  · cases h

section

variable {s : Insertion σ κ}

theorem yields_place_faithful (c : Copying m s) (h : s.memo.Faithful source) (target : Option GroupId)
    (key : ExprKey) :
    Yields (place source target key : InsertM σ κ Placed) s (fun _ u => u.memo.Faithful source) (fun _ _ => True) := by
  unfold place
  refine .bind_get ?_
  dsimp only
  split
  · refine .bind_lift (fun _ _ => ?_) (fun _ _ => trivial)
    refine .bind ((c.yields_requestMerge target _).mono ?_ fun _ _ _ => trivial) fun _ u hu => .of_pure hu
    rintro _ u ⟨-, hu⟩
    exact hu ▸ h
  · refine .bind_lift (fun _ _ => ?_) (fun _ _ => trivial)
    refine .bind (Q := fun g u => u.memo.Faithful source ∧
      ∀ op, key.op = .logical op → ∃ p, u.memo.logical? g = some p ∧ u.memo.Derives source op key.inputs p) ?_ ?_
    · unfold chooseGroup
      refine .bind_get ?_
      split
      · -- an alternative: its properties are compared
        rename_i t op hop
        refine .bind_lift (fun _ hcheck => ?_) (fun _ _ => trivial)
        refine .of_lift (fun g hg => ⟨h, fun op' hop' => ?_⟩) (fun _ _ => trivial)
        obtain ⟨-, rfl⟩ := checkedFind_ok hg
        obtain rfl : op = op' := Operator.logical.inj (hop.symm.trans hop')
        unfold checkAlternative at hcheck
        rw [if_pos h.verify] at hcheck
        obtain ⟨p, hp, hderives⟩ := derives_of_verifyProperties hcheck
        exact ⟨p, (logical?_congr (s.memo.find_find t)).trans hp, hderives⟩
      · rename_i t op hop
        refine .of_lift (fun _ _ => ⟨h, fun op' hop' => ?_⟩) (fun _ _ => trivial)
        cases hop.symm.trans hop'
      · -- a new group has the properties of its first expression
        rename_i op hop
        refine .bind_lift (fun built hbuilt => ?_) (fun _ _ => trivial)
        refine .bind_set (.of_pure ⟨h.addGroup built.1 built.2, fun op' hop' => ?_⟩)
        obtain rfl : op = op' := Operator.logical.inj (hop.symm.trans hop')
        have hgrows := Grows.addGroup s.memo built.1 built.2
        exact ⟨built.1, logical?_addGroup c.wellFormed.coherent built.1 built.2,
          (derives_of_buildProperties hbuilt).carried (hgrows.toExtends.carries rfl id) rfl⟩
      · exact .of_throw trivial
    · rintro g u ⟨hu, hkey⟩
      exact .of_modifyGet (hu.addExpr hkey)

theorem yields_registerProducer_faithful (h : s.memo.Faithful source) (cte : Option CteId) (g : GroupId) :
    Yields (registerProducer cte g : InsertM σ κ Unit) s (fun _ u => u.memo.Faithful source) (fun _ _ => True) := by
  cases cte with
  | none => exact .of_pure h
  | some cte =>
    unfold registerProducer
    refine .of_modify ?_
    split
    · exact h
    · rename_i hnew
      have hgrows := Grows.setProducer (by simpa [Lookup.contains] using hnew) g
      exact h.carried (hgrows.toExtends.carries rfl hgrows.producers) fun hf => .inl ⟨_, hf⟩

mutual

theorem yields_copyIn_faithful (target : Option GroupId) (depth : Nat) :
    ∀ (e : Expr) {s : Insertion σ κ}, Copying m s → s.memo.Faithful source →
      Yields (copyIn source target depth e : InsertM σ κ Placed) s (fun _ u => u.memo.Faithful source)
        (fun _ _ => True)
  | .group g, s, c, h => by
    unfold copyIn
    refine .bind_lift (fun _ _ => ?_) (fun _ _ => trivial)
    refine .bind_get (.bind_lift (fun _ _ => ?_) (fun _ _ => trivial))
    refine .bind ((c.yields_requestMerge target _).mono ?_ fun _ _ _ => trivial) fun _ u hu => .of_pure hu
    rintro _ u ⟨-, hu⟩
    exact hu ▸ h
  | .node (.physical op) inputs, s, c, h => by
    unfold copyIn
    refine .bind_lift (fun _ _ => ?_) (fun _ _ => trivial)
    refine .bind_lift (fun _ _ => ?_) (fun _ _ => trivial)
    refine .bind_get (.bind_lift (fun _ _ => ?_) (fun _ _ => trivial))
    exact yields_place_faithful c h target _
  | .node (.logical op) inputs, s, c, h => by
    unfold copyIn
    refine .bind_lift (fun _ _ => ?_) (fun _ _ => trivial)
    refine .bind_lift (fun _ _ => ?_) (fun _ _ => trivial)
    refine .bind ((yields_copyInputs_faithful (depth + 1) (producedCte? op) inputs c h).and
      (Copying.yields_copyInputs source (depth + 1) (producedCte? op) inputs c)) ?_
    rintro groups u ⟨hu, cu, -⟩
    exact yields_place_faithful cu.copying hu target _

theorem yields_copyInputs_faithful (depth : Nat) (cte : Option CteId) :
    ∀ (es : List Expr) {s : Insertion σ κ}, Copying m s → s.memo.Faithful source →
      Yields (copyInputs source depth cte es : InsertM σ κ (List GroupId)) s (fun _ u => u.memo.Faithful source)
        (fun _ _ => True)
  | [], s, c, h => by
    unfold copyInputs
    exact .of_pure h
  | e :: es, s, c, h => by
    unfold copyInputs
    refine .bind ((yields_copyIn_faithful none depth e c h).and
      (Copying.yields_copyIn source m.target_none depth e c)) ?_
    rintro placed u ⟨hu, cu, hsurvives⟩
    refine .bind ((yields_registerProducer_faithful hu cte placed.group).and
      (cu.copying.yields_registerProducer cte hsurvives)) ?_
    rintro _ v ⟨hv, cv⟩
    refine .bind (yields_copyInputs_faithful depth none es cv.copying hv) ?_
    rintro groups w hw
    exact .of_pure hw

end

end

section

variable [LT κ] [DecidableLT κ]

/-- Merges give expressions other inputs and other groups, with the same properties. -/
theorem Faithful.insertAt (h : m.Faithful source) (w : m.WellFormed) {target : Option GroupId}
    (htarget : ∀ t, target = some t → m.find t = t) (e : Expr) : (m.insertAt source target e).2.Faithful source := by
  have hcopy := yields_copyIn_faithful target 0 e (copying_start w) h
  rcases insertAt_cases source e w htarget with ⟨err, heq⟩ | ⟨placed, s, n, hrun, heq, hinserted⟩
  · rw [heq]
    exact h
  · rw [heq]
    have hprogress := hinserted.progress
    refine (hcopy.of_ok hrun).carried hprogress.toCarries fun {id f} hf => .inl ?_
    exact ⟨_, List.getElem?_eq_getElem (hprogress.length_exprs ▸ lt_of_expr? hf)⟩

theorem Faithful.apply (h : m.Faithful source) (w : m.WellFormed) {op : Operation σ κ}
    (hop : ∀ s ∈ op.source?, s = source) : (m.apply op).Faithful source := by
  cases op with
  | insert s e =>
    obtain rfl := hop s rfl
    exact h.insertAt w m.target_none e
  | insertInto s g e =>
    obtain rfl := hop s rfl
    exact h.insertAt w (m.target_find g) e
  | _ => exact h.sameShape (m.sameShape_apply rfl)

end

section

end

end Cascade.Memo
