import Cascade.Proofs.Memo.Rederivation
import Cascade.Proofs.Memo.Reinsertion

/-!
Demands on expressions: conditions on an operator in view of the properties of its group and of its inputs. As merges
never change properties, a memo in which all expressions meet a demand goes on to do so if what is added to it does
(`Obeys.extends`). Of a tree that is inserted it suffices that every operator meets the demand over inputs of which is
known what is known of groups with such trees (`Placeable`, `Fitting`).
-/

namespace Cascade.Memo

variable {σ κ : Type} {m n : Memo σ κ} {source : PropertySource σ}

/-- A condition on an operator, the properties of its group and those of its inputs. -/
abbrev Demand := Operator → LogicalProperties → List LogicalProperties → Prop

/-- An operator over groups meets a demand as a member of a group. -/
def Meets (m : Memo σ κ) (D : Demand) (op : Operator) (g : GroupId) (inputs : List GroupId) : Prop :=
  ∃ p ps, m.logical? g = some p ∧ List.Forall₂ (fun i q => m.logical? i = some q) inputs ps ∧ D op p ps

/-- All expressions meet a demand, also the removed ones. -/
def Obeys (m : Memo σ κ) (D : Demand) : Prop := ∀ id e, m.expr? id = some e → m.Meets D e.op e.group e.inputs

theorem forall₂_logical?_unique {gs : List GroupId} {ps qs : List LogicalProperties}
    (hps : List.Forall₂ (fun g q => m.logical? g = some q) gs ps)
    (hqs : List.Forall₂ (fun g q => m.logical? g = some q) gs qs) : ps = qs :=
  List.right_unique_forall₂' (fun _ _ _ hp hq => Option.some.inj (hp.symm.trans hq)) hps hqs

theorem forall₂_logical?_mono (h : Extends m n) {gs : List GroupId} {ps : List LogicalProperties}
    (hgs : List.Forall₂ (fun g q => m.logical? g = some q) gs ps) :
    List.Forall₂ (fun g q => n.logical? g = some q) gs ps :=
  hgs.imp fun _ _ hq => logical?_mono h hq

variable {D : Demand}

theorem Meets.mono (h : Extends m n) {op : Operator} {g k : GroupId} {inputs others : List GroupId}
    (hgroup : n.find k = n.find g) (hinputs : others.map n.find = inputs.map n.find) (hm : m.Meets D op g inputs) :
    n.Meets D op k others := by
  obtain ⟨p, ps, hp, hps, hd⟩ := hm
  refine ⟨p, ps, (logical?_congr hgroup).trans (logical?_mono h hp), ?_, hd⟩
  rw [← forall₂_logical?_find, hinputs, forall₂_logical?_find]
  exact forall₂_logical?_mono h hps

theorem obeys_empty (D : Demand) (verify : Bool) (limit : Option Nat) : (empty verify limit : Memo σ κ).Obeys D := by
  intro id e he
  simp [expr?, empty] at he

/-- What meets the demand goes on to meet it. -/
theorem Obeys.extends (h : m.Obeys D) (k : Extends m n)
    (hexprs : ∀ id f, n.expr? id = some f → (∃ e, m.expr? id = some e) ∨ n.Meets D f.op f.group f.inputs) :
    n.Obeys D := by
  intro id f hf
  rcases hexprs id f hf with ⟨e, he⟩ | hmeets
  · obtain ⟨f', hf', hop, hgroup, hinputs⟩ := k.exprs he
    cases hf'.symm.trans hf
    exact hop ▸ (h id e he).mono k hgroup hinputs
  · exact hmeets

theorem Obeys.sameShape (h : m.Obeys D) (k : SameShape m n) : n.Obeys D := by
  intro id f hf
  obtain ⟨e, he, hshape⟩ := k.expr_back hf
  obtain ⟨hgroup, hop, hinputs, -⟩ := (exprShape_eq_iff f e).1 hshape
  unfold Meets
  rw [hgroup, hop, hinputs, k.logical?_eq]
  exact h id e he

theorem Obeys.addExpr (h : m.Obeys D) {g : GroupId} {key : ExprKey} (hkey : m.Meets D key.op g key.inputs) :
    (m.addExpr g key).2.Obeys D := by
  have k := (Grows.addExpr m g key).toExtends
  refine h.extends k fun id f hf => ?_
  rw [expr?_addExpr] at hf
  split at hf
  · cases hf
    exact .inr (hkey.mono k rfl rfl)
  · exact .inl ⟨f, hf⟩

/-! Trees. `K` says what is known of the group in which a tree is found. -/

section

variable (m source D) (K : Expr → LogicalProperties → Prop)

/-- Wherever the operators of a tree are placed, they meet the demand. -/
inductive Placeable : Expr → Prop
  | group {g : GroupId} (h : ∀ n p, Extends m n → n.logical? g = some p → K (.group g) p) : Placeable (.group g)
  /-- no group is made for a physical operator -/
  | physical {op : PhysicalOp} {inputs : List Expr} : Placeable (.node (.physical op) inputs)
  | logical {op : LogicalOp} {inputs : List Expr} (hinputs : ∀ e ∈ inputs, Placeable e)
    (hbuilt : ∀ p ps producer, List.Forall₂ K inputs ps → source.logical op ps producer = .ok p → D (.logical op) p ps)
    (hfound : ∀ p ps, List.Forall₂ K inputs ps → D (.logical op) p ps → K (.node (.logical op) inputs) p) :
    Placeable (.node (.logical op) inputs)

/-- Where a tree is added to a group its operators meet the demand. -/
inductive Fitting (t : GroupId) : Expr → Prop
  | group {g : GroupId} : Fitting t (.group g)
  | physical {op : PhysicalOp} {inputs : List Expr}
    (h : ∀ (n : Memo σ κ) named p ps, Extends m n → inputs.mapM Expr.group? = some named → n.logical? t = some p →
      List.Forall₂ (fun g q => n.logical? g = some q) named ps → D (.physical op) p ps) :
    Fitting t (.node (.physical op) inputs)
  | logical {op : LogicalOp} {inputs : List Expr} (hinputs : ∀ e ∈ inputs, Placeable m source D K e)
    (h : ∀ (n : Memo σ κ) p ps, Extends m n → n.logical? t = some p → List.Forall₂ K inputs ps →
      D (.logical op) p ps) : Fitting t (.node (.logical op) inputs)

end

variable {K : Expr → LogicalProperties → Prop}

theorem Placeable.mono (h : Extends m n) {e : Expr} (hp : Placeable m source D K e) : Placeable n source D K e := by
  induction hp with
  | group hg => exact .group fun o p k => hg o p (h.trans k)
  | physical => exact .physical
  | logical _ hbuilt hfound ih => exact .logical ih hbuilt hfound

theorem Fitting.mono (h : Extends m n) {t k : GroupId} (ht : n.find k = n.find t) {e : Expr}
    (hf : Fitting m source D K t e) : Fitting n source D K k e := by
  have hread : ∀ o : Memo σ κ, Extends n o → o.logical? k = o.logical? t := fun o ho => logical?_congr (ho.find ht)
  cases hf with
  | group => exact .group
  | physical hp => exact .physical fun o named p ps ho hnamed hlogical => hp o named p ps (h.trans ho) hnamed (hread o ho ▸ hlogical)
  | logical hinputs hl =>
    refine .logical (fun e he => (hinputs e he).mono h) fun o p ps ho hlogical => ?_
    exact hl o p ps (h.trans ho) (hread o ho ▸ hlogical)

/-! Copying. -/

theorem exists_logical? {g : GroupId} (hg : m.Knows g) : ∃ p, m.logical? g = some p := by
  obtain ⟨x, hx⟩ := exists_content (knows_find hg)
  exact ⟨x.logical, (logical?_congr (m.find_find g)).symm.trans (logical?_of_stores (m.find_find g) hx)⟩

theorem exists_forall₂_logical? {gs : List GroupId} (hgs : ∀ g ∈ gs, m.Knows g) :
    ∃ ps, List.Forall₂ (fun g q => m.logical? g = some q) gs ps :=
  exists_forall₂ fun g hg => exists_logical? (hgs g hg)

section

variable {s : Insertion σ κ}

/-- An operator is found where it meets the demand, or added where it does. -/
theorem yields_place_obeys (source : PropertySource σ) (key : ExprKey) (c : Copying m s) (h : s.memo.Obeys D)
    {target : Option GroupId} {ps : List LogicalProperties} (hps : List.Forall₂ (fun g q => s.memo.logical? g = some q) key.inputs ps)
    (hbuilt : ∀ op producer p, target = none → key.op = .logical op → source.logical op ps producer = .ok p →
      D key.op p ps)
    (htarget : ∀ t p, target = some t → s.memo.logical? t = some p →
      (∀ op, key.op = .logical op → s.memo.checkAlternative source t op key.inputs = .ok ()) → D key.op p ps) :
    Yields (place source target key : InsertM σ κ Placed) s
      (fun placed u => Extends s.memo u.memo ∧ u.memo.Obeys D ∧ u.memo.Meets D key.op placed.group key.inputs)
      (fun _ _ => True) := by
  unfold place
  refine .bind_get ?_
  dsimp only
  split
  · rename_i id hid
    obtain ⟨x, hx, rfl⟩ := (c.wellFormed.coherent.index_iff key id).1 hid
    refine .bind_lift (fun e he => ?_) (fun _ _ => trivial)
    cases hx.1.symm.trans (expr_ok he)
    refine .bind (Q := fun _ u => u.memo = s.memo) ?_ fun _ u hu => .of_pure ?_
    · exact (c.yields_requestMerge target _).mono (fun _ _ hu => hu.2) fun _ _ _ => trivial
    · rw [hu]
      exact ⟨.refl _, h, (h id x hx.1).mono (.refl _) (s.memo.find_find x.group) rfl⟩
  · refine .bind_lift (fun _ _ => ?_) (fun _ _ => trivial)
    refine .bind (Q := fun g u => Extends s.memo u.memo ∧ u.memo.Obeys D ∧ u.memo.Meets D key.op g key.inputs) ?_ ?_
    · -- a group that is known keeps its properties
      have hknown : ∀ t g, target = some t → s.memo.checkedFind t = .ok g →
          (∀ op, key.op = .logical op → s.memo.checkAlternative source t op key.inputs = .ok ()) →
          s.memo.Meets D key.op g key.inputs := by
        intro t g ht hg hchecked
        obtain ⟨hknows, rfl⟩ := checkedFind_ok hg
        obtain ⟨p, hp⟩ := exists_logical? hknows
        exact ⟨p, ps, (logical?_congr (s.memo.find_find t)).trans hp, hps, htarget t p ht hp hchecked⟩
      unfold chooseGroup
      refine .bind_get ?_
      split
      · rename_i t op hop
        refine .bind_lift (fun _ hchecked => ?_) (fun _ _ => trivial)
        refine .of_lift (fun g hg => ⟨.refl _, h, hknown _ g rfl hg fun op' hop' => ?_⟩) (fun _ _ => trivial)
        cases hop.symm.trans hop'
        exact hchecked
      · rename_i hop
        refine .of_lift (fun g hg => ⟨.refl _, h, hknown _ g rfl hg fun op' hop' => ?_⟩) (fun _ _ => trivial)
        cases hop.symm.trans hop'
      · rename_i op hop
        refine .bind_lift (fun built hbuild => ?_) (fun _ _ => trivial)
        have k := (Grows.addGroup s.memo built.1 built.2).toExtends
        refine .bind_set (.of_pure ⟨k, h.extends k fun id f hf => .inl ⟨f, hf⟩, built.1, ps, ?_, ?_, ?_⟩)
        · exact logical?_addGroup c.wellFormed.coherent built.1 built.2
        · exact forall₂_logical?_mono k hps
        · obtain ⟨qs, producer, hqs, hsource, -⟩ := derives_of_buildProperties hbuild
          exact hbuilt op producer built.1 rfl hop (forall₂_logical?_unique hqs hps ▸ hsource)
      · exact .of_throw trivial
    · rintro g u ⟨k, hu, hmeets⟩
      have hgrows := (Grows.addExpr u.memo g key).toExtends
      exact .of_modifyGet ⟨k.trans hgrows, hu.addExpr hmeets, hmeets.mono hgrows rfl rfl⟩

theorem extends_registerProducer (cte : Option CteId) (g : GroupId) (s : Insertion σ κ) (h : s.memo.Obeys D) :
    Yields (registerProducer cte g : InsertM σ κ Unit) s (fun _ u => Extends s.memo u.memo ∧ u.memo.Obeys D)
      (fun _ _ => True) := by
  cases cte with
  | none => exact .of_pure ⟨.refl _, h⟩
  | some cte =>
    unfold registerProducer
    refine .of_modify ?_
    split
    · exact ⟨.refl _, h⟩
    · rename_i hnew
      have k := (Grows.setProducer (by simpa [Lookup.contains] using hnew) g : Grows s.memo _).toExtends
      exact ⟨k, h.extends k fun _ f hf => .inl ⟨f, hf⟩⟩

mutual

/-- A tree is found where is known what is known of its group. -/
theorem Placeable.yields_copyIn (depth : Nat) :
    ∀ (e : Expr) {s : Insertion σ κ}, Placeable m source D K e → Copying m s → s.memo.Obeys D →
      Yields (copyIn source none depth e : InsertM σ κ Placed) s
        (fun placed u => Extends s.memo u.memo ∧ u.memo.Obeys D ∧ ∃ p, u.memo.logical? placed.group = some p ∧ K e p)
        (fun _ _ => True)
  | .group g, s, hp, c, h => by
    cases hp with | group hg => ?_
    unfold copyIn
    refine .bind_lift (fun _ _ => ?_) (fun _ _ => trivial)
    refine .bind_get (.bind_lift (fun k hk => ?_) (fun _ _ => trivial))
    obtain ⟨hknown, rfl⟩ := checkedFind_ok hk
    obtain ⟨p, hlogical⟩ := exists_logical? hknown
    refine .bind (Q := fun _ u => u = s) (.of_pure rfl) fun _ u hu => .of_pure ?_
    rw [hu]
    exact ⟨.refl _, h, p, (logical?_congr (s.memo.find_find g)).trans hlogical, hg s.memo p c.toExtends hlogical⟩
  | .node (.physical op) inputs, s, hp, c, h => by
    unfold copyIn
    refine .bind_lift (fun _ _ => ?_) (fun _ _ => trivial)
    refine .bind_lift (fun _ _ => ?_) (fun _ _ => trivial)
    refine .bind_get (.bind_lift (fun groups hgroups => ?_) (fun _ _ => trivial))
    cases hgroups
  | .node (.logical op) inputs, s, hp, c, h => by
    cases hp with | logical hinputs hbuilt hfound => ?_
    unfold copyIn
    refine .bind_lift (fun _ _ => ?_) (fun _ _ => trivial)
    refine .bind_lift (fun _ _ => ?_) (fun _ _ => trivial)
    refine .bind ((Placeable.yields_copyInputs (depth + 1) (producedCte? op) inputs hinputs c h).and
      (Copying.yields_copyInputs source (depth + 1) (producedCte? op) inputs c)) ?_
    rintro groups u ⟨⟨k, hu, ps, hps, hknown⟩, cu, -⟩
    refine (yields_place_obeys source ⟨.logical op, groups⟩ cu.copying hu hps ?_ ?_).mono ?_ fun _ _ _ => trivial
    · rintro _ producer p - ⟨⟩ hsource
      exact hbuilt p ps producer hknown hsource
    · rintro _ _ ⟨⟩
    · rintro placed v ⟨k', hv, p, qs, hp, hqs, hd⟩
      have hsame := forall₂_logical?_unique hqs (forall₂_logical?_mono k' hps)
      exact ⟨k.trans k', hv, p, hp, hfound p ps hknown (hsame ▸ hd)⟩

theorem Placeable.yields_copyInputs (depth : Nat) (cte : Option CteId) :
    ∀ (es : List Expr) {s : Insertion σ κ}, (∀ e ∈ es, Placeable m source D K e) → Copying m s → s.memo.Obeys D →
      Yields (copyInputs source depth cte es : InsertM σ κ (List GroupId)) s
        (fun groups u => Extends s.memo u.memo ∧ u.memo.Obeys D ∧
          ∃ ps, List.Forall₂ (fun g q => u.memo.logical? g = some q) groups ps ∧ List.Forall₂ K es ps)
        (fun _ _ => True)
  | [], s, _, c, h => by
    unfold copyInputs
    exact .of_pure ⟨.refl _, h, [], .nil, .nil⟩
  | e :: es, s, hes, c, h => by
    unfold copyInputs
    refine .bind ((Placeable.yields_copyIn depth e (hes e (List.mem_cons_self ..)) c h).and
      (Copying.yields_copyIn source m.target_none depth e c)) ?_
    rintro placed u ⟨⟨k, hu, p, hp, hknown⟩, cu, hsurvives⟩
    refine .bind ((extends_registerProducer cte placed.group u hu).and
      (cu.copying.yields_registerProducer cte hsurvives)) ?_
    rintro _ v ⟨⟨k', hv⟩, cv⟩
    refine .bind (Placeable.yields_copyInputs depth none es (fun e he => hes e (List.mem_cons_of_mem _ he)) cv.copying hv) ?_
    rintro groups w ⟨k'', hw, ps, hps, hknowns⟩
    refine .of_pure ⟨k.trans (k'.trans k''), hw, p :: ps, .cons ?_ hps, .cons hknown hknowns⟩
    exact logical?_mono (k'.trans k'') hp

end

/-- A logical operator is added to a group if it meets the demand there. The group is asked for its properties if the
memo compares them. -/
theorem yields_copyIn_alternative {t : GroupId} {op : LogicalOp} {inputs : List Expr}
    (hinputs : ∀ e ∈ inputs, Placeable m source D K e)
    (hop : ∀ (n : Memo σ κ) groups p ps, Extends m n → n.verify = m.verify → n.logical? t = some p →
      List.Forall₂ (fun g q => n.logical? g = some q) groups ps → List.Forall₂ K inputs ps →
      n.checkAlternative source t op groups = .ok () → D (.logical op) p ps)
    (c : Copying m s) (h : s.memo.Obeys D) (depth : Nat) :
    Yields (copyIn source (some t) depth (.node (.logical op) inputs) : InsertM σ κ Placed) s
      (fun _ u => u.memo.Obeys D) (fun _ _ => True) := by
  unfold copyIn
  refine .bind_lift (fun _ _ => ?_) (fun _ _ => trivial)
  refine .bind_lift (fun _ _ => ?_) (fun _ _ => trivial)
  refine .bind ((Placeable.yields_copyInputs (depth + 1) (producedCte? op) inputs hinputs c h).and
    (Copying.yields_copyInputs source (depth + 1) (producedCte? op) inputs c)) ?_
  rintro groups u ⟨⟨-, hu, ps, hps, hknown⟩, cu, -⟩
  refine (yields_place_obeys source ⟨.logical op, groups⟩ cu.copying hu hps ?_ ?_).mono (fun _ _ hv => hv.2.1)
    fun _ _ _ => trivial
  · rintro _ _ _ ⟨⟩
  · rintro _ p ⟨⟩ hp hchecked
    exact hop u.memo groups p ps cu.copying.toExtends cu.copying.verify_eq hp hps hknown (hchecked op rfl)

/-- A tree that fits into a group is copied to it. -/
theorem Fitting.yields_copyIn {t : GroupId} {e : Expr} (hf : Fitting m source D K t e) (c : Copying m s)
    (h : s.memo.Obeys D) (depth : Nat) :
    Yields (copyIn source (some t) depth e : InsertM σ κ Placed) s (fun _ u => u.memo.Obeys D) (fun _ _ => True) := by
  cases hf with
  | group =>
    unfold copyIn
    refine .bind_lift (fun _ _ => ?_) (fun _ _ => trivial)
    refine .bind_get (.bind_lift (fun _ _ => ?_) (fun _ _ => trivial))
    refine .bind ((c.yields_requestMerge (some t) _).mono ?_ fun _ _ _ => trivial) fun _ u hu => .of_pure hu
    rintro _ u ⟨-, hu⟩
    exact hu ▸ h
  | @physical op inputs hfits =>
    unfold copyIn
    refine .bind_lift (fun _ _ => ?_) (fun _ _ => trivial)
    refine .bind_lift (fun _ _ => ?_) (fun _ _ => trivial)
    refine .bind_get (.bind_lift (fun groups hgroups => ?_) (fun _ _ => trivial))
    obtain ⟨-, named, -, hnamed, hknown, rfl⟩ := exists_of_physicalInputs hgroups
    obtain ⟨ps, hps⟩ := exists_forall₂_logical? hknown
    have hfind := (forall₂_logical?_find s.memo named ps).2 hps
    refine (yields_place_obeys source ⟨.physical op, _⟩ c h hfind ?_ ?_).mono
      (fun _ _ hu => hu.2.1) fun _ _ _ => trivial
    · rintro _ _ _ ⟨⟩
    · rintro _ p ⟨⟩ hp -
      exact hfits s.memo named p ps c.toExtends hnamed hp hps
  | @logical op inputs hinputs hfits =>
    exact yields_copyIn_alternative hinputs (fun n _ p ps k _ hp _ hknown _ => hfits n p ps k hp hknown) c h depth

end

/-! Insertions. -/

section

variable [LT κ] [DecidableLT κ]

/-- An insertion leaves a memo that meets the demand if copying does. -/
theorem Obeys.insertAt (h : m.Obeys D) (w : m.WellFormed) {target : Option GroupId}
    (htarget : ∀ t, target = some t → m.find t = t) {e : Expr}
    (hcopy : Yields (copyIn source target 0 e : InsertM σ κ Placed) ⟨m, [], []⟩ (fun _ u => u.memo.Obeys D)
      (fun _ _ => True)) : (m.insertAt source target e).2.Obeys D := by
  rcases insertAt_cases source e w htarget with ⟨err, heq⟩ | ⟨placed, s, n, hrun, heq, hinserted⟩
  · rw [heq]
    exact h
  · rw [heq]
    have hprogress := hinserted.progress
    refine (hcopy.of_ok hrun).extends hprogress.toExtends fun id f hf => .inl ?_
    exact ⟨_, List.getElem?_eq_getElem (hprogress.length_exprs ▸ lt_of_expr? hf)⟩

theorem Fitting.insertInto {g : GroupId} {e : Expr} (hf : Fitting m source D K g e) (h : m.Obeys D) (w : m.WellFormed) :
    (m.insertInto source g e).2.Obeys D := by
  have hf : Fitting m source D K (m.find g) e := hf.mono (.refl m) (m.find_find g)
  exact h.insertAt w (m.target_find g) (hf.yields_copyIn (copying_start w) h 0)

/-- Of the group of a tree is known what is known of the tree. -/
theorem Placeable.insert {e : Expr} (hp : Placeable m source D K e) (h : m.Obeys D) (w : m.WellFormed) {g : GroupId}
    (hinsert : m.insert source e = (.ok g, n)) : n.Obeys D ∧ ∃ p, n.logical? g = some p ∧ K e p := by
  have hcopy := Placeable.yields_copyIn 0 e hp (copying_start w) h
  have hobeys := h.insertAt w m.target_none (hcopy.mono (fun _ _ hu => hu.2.1) fun _ _ _ => trivial)
  rcases insertAt_cases source e w m.target_none with ⟨err, heq⟩ | ⟨placed, s, o, hrun, heq, hinserted⟩
  · unfold Memo.insert at hinsert
    rw [heq] at hinsert
    cases hinsert
  · unfold Memo.insert at hinsert
    rw [heq] at hinsert hobeys
    cases hinsert
    obtain ⟨-, -, p, hp, hk⟩ := hcopy.of_ok hrun
    have k := hinserted.progress.toExtends
    exact ⟨hobeys, p, (logical?_congr (n.find_find _)).trans (logical?_mono k hp), hk⟩

end

end Cascade.Memo
