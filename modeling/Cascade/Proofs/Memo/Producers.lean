import Cascade.Proofs.Memo.Reinsertion

/-!
The common table expressions that operators name. An anchor is added when its producer is known, and what is known stays
known, so a memo knows a producer of every common table expression that an anchor in it is of
(`registers_runAll`).
-/

namespace Cascade.Memo

variable {σ κ : Type} {m n : Memo σ κ} {named : LogicalOp → Option CteId}

/-- The memo has a producer of every common table expression its expressions name. -/
def Registers (m : Memo σ κ) (named : LogicalOp → Option CteId) : Prop :=
  ∀ id e op cte, m.expr? id = some e → e.op = .logical op → named op = some cte → m.cteProducers.contains cte = true

theorem registers_empty (named : LogicalOp → Option CteId) (verify : Bool) (limit : Option Nat) :
    (empty verify limit : Memo σ κ).Registers named := by
  intro id e op cte he
  simp [expr?, empty] at he

theorem Registers.addExpr (h : m.Registers named) {g : GroupId} {key : ExprKey}
    (hkey : ∀ op cte, key.op = .logical op → named op = some cte → m.cteProducers.contains cte = true) :
    (m.addExpr g key).2.Registers named := by
  intro id e op cte he hop hcte
  rw [expr?_addExpr] at he
  split at he
  · cases he
    exact hkey op cte hop hcte
  · exact h id e op cte he hop hcte

/-- What is known stays known. -/
theorem Registers.mono (h : m.Registers named)
    (hexprs : ∀ id f, n.expr? id = some f → ∃ e, m.expr? id = some e ∧ f.op = e.op)
    (hproducers : ∀ {cte}, m.cteProducers.contains cte = true → n.cteProducers.contains cte = true) :
    n.Registers named := by
  intro id f op cte hf hop hcte
  obtain ⟨e, he, hsame⟩ := hexprs id f hf
  exact hproducers (h id e op cte he (hsame.symm.trans hop) hcte)

theorem Registers.sameShape (h : m.Registers named) (k : SameShape m n) : n.Registers named := by
  refine h.mono (fun id f hf => ?_) fun hcte => by rwa [k.producers]
  obtain ⟨e, he, hshape⟩ := k.expr_back hf
  exact ⟨e, he, ((exprShape_eq_iff f e).1 hshape).2.1⟩

theorem Registers.setProducer (h : m.Registers named) (cte : CteId) (g : GroupId) :
    ({ m with cteProducers := m.cteProducers.set cte g } : Memo σ κ).Registers named :=
  h.mono (fun _ f hf => ⟨f, hf, rfl⟩) fun hcte => (Lookup.contains_set_iff ..).2 (.inl hcte)

section Copying

variable {s : Insertion σ κ} (source : PropertySource σ)

/-- An operator is added once a producer of what it names is known. -/
theorem Registers.yields_place (h : s.memo.Registers named) (target : Option GroupId) {key : ExprKey}
    (hkey : ∀ op cte, key.op = .logical op → named op = some cte → s.memo.cteProducers.contains cte = true) :
    Yields (place source target key : InsertM σ κ Placed) s (fun _ u => u.memo.Registers named) (fun _ _ => True) := by
  unfold place
  refine .bind_get ?_
  dsimp only
  split
  · refine .bind_lift (fun e _ => ?_) (fun _ _ => trivial)
    refine .bind ((memo_requestMerge target _ s).mono (fun _ _ => id) fun _ _ h => h.elim) ?_
    rintro _ u hu
    exact .of_pure (hu ▸ h)
  · refine .bind_lift (fun _ _ => ?_) (fun _ _ => trivial)
    refine .bind (Q := fun _ u => u.memo.exprs = s.memo.exprs ∧ u.memo.cteProducers = s.memo.cteProducers) ?_ ?_
    · unfold chooseGroup
      refine .bind_get ?_
      split
      · refine .bind_lift (fun _ _ => ?_) (fun _ _ => trivial)
        exact .of_lift (fun _ _ => ⟨rfl, rfl⟩) (fun _ _ => trivial)
      · exact .of_lift (fun _ _ => ⟨rfl, rfl⟩) (fun _ _ => trivial)
      · exact .bind_lift (fun _ _ => .bind_set (.of_pure ⟨rfl, rfl⟩)) (fun _ _ => trivial)
      · exact .of_throw trivial
    · rintro g u ⟨hexprs, hproducers⟩
      have hu : u.memo.Registers named := h.mono (fun id f hf => ⟨f, by rwa [expr?, ← hexprs], rfl⟩) fun hcte => by
        rwa [hproducers]
      refine .of_modifyGet (hu.addExpr fun op cte hop hcte => ?_)
      rw [hproducers]
      exact hkey op cte hop hcte

theorem Registers.yields_registerProducer (h : s.memo.Registers named) (cte : Option CteId) (g : GroupId) :
    Yields (registerProducer cte g : InsertM σ κ Unit) s (fun _ u => u.memo.Registers named) (fun _ _ => True) := by
  cases cte with
  | none => exact .of_pure h
  | some cte =>
    unfold registerProducer
    refine .of_modify ?_
    split
    · exact h
    · exact h.setProducer cte g

mutual

/-- The anchors of a tree are added after their producers. -/
theorem Registers.yields_copyIn (target : Option GroupId) (depth : Nat) :
    ∀ (e : Expr) {s : Insertion σ κ}, Copying m s → s.memo.Registers producedCte? →
      Yields (copyIn source target depth e : InsertM σ κ Placed) s (fun _ u => u.memo.Registers producedCte?)
        (fun _ _ => True)
  | .group g, s, c, h => by
    unfold copyIn
    refine .bind_lift (fun _ _ => ?_) (fun _ _ => trivial)
    refine .bind_get (.bind_lift (fun _ _ => ?_) (fun _ _ => trivial))
    refine .bind ((memo_requestMerge target _ s).mono (fun _ _ => id) fun _ _ h => h.elim) ?_
    rintro _ u hu
    exact .of_pure (hu ▸ h)
  | .node (.physical op) inputs, s, c, h => by
    unfold copyIn
    refine .bind_lift (fun _ _ => ?_) (fun _ _ => trivial)
    refine .bind_lift (fun _ _ => ?_) (fun _ _ => trivial)
    exact .bind_get (.bind_lift (fun _ _ => h.yields_place source target nofun) (fun _ _ => trivial))
  | .node (.logical op) inputs, s, c, h => by
    unfold copyIn
    refine .bind_lift (fun _ _ => ?_) (fun _ _ => trivial)
    refine .bind_lift (fun _ hchecked => ?_) (fun _ _ => trivial)
    refine .bind ((Registers.yields_copyInputs (depth + 1) (producedCte? op) inputs c h).and
      (Copying.yields_copyInputs_finds source (depth + 1) (producedCte? op) inputs c)) ?_
    rintro groups u ⟨hu, -, hfinds⟩
    refine hu.yields_place source target ?_
    rintro _ cte ⟨⟩ hcte
    -- an anchor has inputs, and of these the first is its producer
    cases hfinds with
    | nil =>
      cases op <;> cases hcte
      cases checkInputs_ok hchecked 2 rfl
    | cons _ hknown _ => exact hknown cte hcte

theorem Registers.yields_copyInputs (depth : Nat) (cte : Option CteId) :
    ∀ (es : List Expr) {s : Insertion σ κ}, Copying m s → s.memo.Registers producedCte? →
      Yields (copyInputs source depth cte es : InsertM σ κ (List GroupId)) s (fun _ u => u.memo.Registers producedCte?)
        (fun _ _ => True)
  | [], s, c, h => by
    unfold copyInputs
    exact .of_pure h
  | e :: es, s, c, h => by
    unfold copyInputs
    refine .bind ((Registers.yields_copyIn none depth e c h).and
      (Copying.yields_copyIn source m.target_none depth e c)) ?_
    rintro placed u ⟨hu, cu, hsurvives⟩
    refine .bind ((hu.yields_registerProducer cte placed.group).and (cu.copying.yields_registerProducer cte hsurvives)) ?_
    rintro _ v ⟨hv, cv⟩
    exact .bind (Registers.yields_copyInputs depth none es cv.copying hv) fun _ _ hw => .of_pure hw

end

end Copying

section

variable [LT κ] [DecidableLT κ]

theorem Registers.insertAt (h : m.Registers producedCte?) (w : m.WellFormed) (source : PropertySource σ) (e : Expr)
    {target : Option GroupId} (htarget : ∀ t, target = some t → m.find t = t) :
    (m.insertAt source target e).2.Registers producedCte? := by
  have hcopy := Registers.yields_copyIn source target 0 e (copying_start w) h
  rcases insertAt_cases source e w htarget with ⟨err, heq⟩ | ⟨placed, s, n, hrun, heq, hinserted⟩
  · rw [heq]
    exact h
  · rw [heq]
    have hprogress := hinserted.progress
    refine (hcopy.of_ok hrun).mono (fun id f hf => ?_) (hprogress.represents hinserted.wellFormed.coherent).producers
    have he := List.getElem?_eq_getElem (hprogress.length_exprs ▸ lt_of_expr? hf)
    obtain ⟨f', hf', hop, -⟩ := hprogress.exprs he
    cases hf'.symm.trans hf
    exact ⟨_, he, hop⟩

theorem Registers.apply (h : m.Registers producedCte?) (w : m.WellFormed) (op : Operation σ κ) :
    (m.apply op).Registers producedCte? := by
  cases op with
  | insert source e => exact h.insertAt w source e m.target_none
  | insertInto source g e => exact h.insertAt w source e (m.target_find g)
  | _ => exact h.sameShape (m.sameShape_apply rfl)

/-- After any operations a memo has a producer of every common table expression that it has an anchor of. -/
theorem registers_runAll (verify : Bool) (limit : Option Nat) (ops : List (Operation σ κ)) :
    (runAll verify limit ops).Registers producedCte? := by
  unfold runAll
  have hstart : (empty verify limit : Memo σ κ).Registers producedCte? := registers_empty _ verify limit
  have w : (empty verify limit : Memo σ κ).WellFormed := wellFormed_empty verify limit
  generalize empty verify limit = m at hstart w
  induction ops generalizing m with
  | nil => exact hstart
  | cons op ops ih => exact ih _ (hstart.apply w op) (wellFormed_apply w op)

end

end Cascade.Memo
