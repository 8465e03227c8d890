import Cascade.Proofs.Memo.Addition
import Cascade.Proofs.Memo.Rollback
import Cascade.Proofs.Sequence
import Cascade.Proofs.Stateful

/-!
Copying a tree into a memo. At every point of it the memo is well-formed, no two groups that were apart
are together, and a rollback gives the memo the copying started from (`Copying`); at an error the last of
these is what is left (`Undoable`). A merge is requested just if the tree was found outside its target
(`requested`).
-/

namespace Cascade.Memo

variable {σ κ : Type}

/-- A rollback leads back to the memo `m`. -/
def Undoable (m : Memo σ κ) (s : Insertion σ κ) : Prop := s.memo.rollback m.mark s.newCtes = m

/-- A tree is being copied into the memo `m`. -/
structure Copying (m : Memo σ κ) (s : Insertion σ κ) : Prop extends Inherits m s.memo where
  undoable : Undoable m s
  exprs_kept : ∀ {id e}, m.expr? id = some e → s.memo.expr? id = some e
  groups_le : m.groups.length ≤ s.memo.groups.length
  exprs_le : m.exprs.length ≤ s.memo.exprs.length
  find_eq : ∀ g, s.memo.find g = m.find g
  limit_eq : s.memo.limit = m.limit
  within : ∀ n, m.limit = some n → m.exprs.length ≤ n → s.memo.exprs.length ≤ n
  wellFormed : s.memo.WellFormed

theorem Copying.verify_eq {m : Memo σ κ} {s : Insertion σ κ} (c : Copying m s) : s.memo.verify = m.verify :=
  show (s.memo.rollback m.mark s.newCtes).verify = m.verify from congrArg Memo.verify c.undoable

/-- A step of copying that keeps what survives and requests some merges. -/
structure Continues (m : Memo σ κ) (s : Insertion σ κ) (merges : List Merge) (t : Insertion σ κ) : Prop where
  copying : Copying m t
  survives : ∀ g, s.memo.Survives g → t.memo.Survives g
  merges_eq : t.merges = s.merges ++ merges

/-- The merge that is requested when a tree meant for a group is found in one. -/
def requested (target : Option GroupId) (group : GroupId) : List Merge :=
  match target with
  | none => []
  | some t => if t = group then [] else [(t, group)]

theorem mem_requested {target : Option GroupId} {group : GroupId} {p : Merge} (h : p ∈ requested target group) :
    target = some p.1 ∧ p.2 = group := by
  unfold requested at h
  split at h
  · cases h
  · split at h
    · cases h
    · rw [List.mem_singleton.1 h]
      exact ⟨rfl, rfl⟩

theorem target_none (m : Memo σ κ) : ∀ t : GroupId, none = some t → m.find t = t := fun _ h => by cases h

theorem target_find (m : Memo σ κ) (g : GroupId) : ∀ t, some (m.find g) = some t → m.find t = t := by
  intro t ht
  rw [← Option.some.inj ht, m.find_find]

theorem copying_start {m : Memo σ κ} (w : m.WellFormed) : Copying m ⟨m, [], []⟩ where
  toInherits := .refl m
  undoable := rollback_mark w.coherent
  exprs_kept h := h
  groups_le := Nat.le_refl _
  exprs_le := Nat.le_refl _
  find_eq _ := rfl
  limit_eq := rfl
  within _ _ h := h
  wellFormed := w

theorem Continues.trans {m : Memo σ κ} {s t u : Insertion σ κ} {p q : List Merge} (h : Continues m s p t)
    (k : Continues m t q u) : Continues m s (p ++ q) u where
  copying := k.copying
  survives g hg := k.survives g (h.survives g hg)
  merges_eq := by rw [k.merges_eq, h.merges_eq, List.append_assoc]

theorem lt_of_checkLimit {m : Memo σ κ} {u : Unit} (h : m.checkLimit = .ok u) {n : Nat} (hn : m.limit = some n) :
    m.exprs.length < n := by
  unfold checkLimit at h
  rw [hn] at h
  split at h
  · cases h
  · rename_i hlt
    simp only [Option.any_some, decide_eq_true_eq, Nat.not_le] at hlt
    exact hlt

namespace Copying

variable {m : Memo σ κ} {s : Insertion σ κ}

theorem continues_self (c : Copying m s) : Continues m s [] s := ⟨c, fun _ h => h, (List.append_nil _).symm⟩

theorem yields_requestMerge (c : Copying m s) (target : Option GroupId) (g : GroupId) :
    Yields (requestMerge target g : InsertM σ κ Unit) s
      (fun _ t => Continues m s (requested target g) t ∧ t.memo = s.memo) (fun _ t => Undoable m t) := by
  cases target with
  | none => exact .of_pure ⟨c.continues_self, rfl⟩
  | some t =>
    unfold requestMerge requested
    by_cases he : t = g
    · simp only [he, if_true]
      exact .of_pure ⟨c.continues_self, rfl⟩
    · simp only [he, if_false]
      exact .of_modify ⟨⟨{ c with }, fun _ h => h, rfl⟩, rfl⟩

theorem setProducer (c : Copying m s) {cte : CteId} {g : GroupId} (hg : s.memo.Survives g)
    (hnew : s.memo.cteProducers.get? cte = none) :
    Copying m
      { s with
        memo := { s.memo with cteProducers := s.memo.cteProducers.set cte g }
        newCtes := s.newCtes ++ [cte] } where
  toInherits := { c.toInherits with }
  exprs_kept := c.exprs_kept
  undoable := (rollback_setProducer s.memo m.mark g hnew s.newCtes).trans c.undoable
  groups_le := c.groups_le
  exprs_le := c.exprs_le
  find_eq := c.find_eq
  limit_eq := c.limit_eq
  within := c.within
  wellFormed :=
    { coherent :=
        { c.wellFormed.coherent with
          producers_survive := by
            intro k p hp
            rw [Lookup.get?_set] at hp
            split at hp
            · rw [← Option.some.inj hp]
              exact hg
            · exact c.wellFormed.coherent.producers_survive hp }
      nonempty := c.wellFormed.nonempty }

theorem yields_registerProducer (c : Copying m s) (cte : Option CteId) {g : GroupId}
    (hg : s.memo.Survives g) :
    Yields (registerProducer cte g : InsertM σ κ Unit) s (fun _ t => Continues m s [] t)
      (fun _ t => Undoable m t) := by
  cases cte with
  | none => exact .of_pure c.continues_self
  | some cte =>
    unfold registerProducer
    refine .of_modify ?_
    split
    · exact c.continues_self
    · rename_i hnew
      have hnew : s.memo.cteProducers.get? cte = none := by simpa [Lookup.contains] using hnew
      exact ⟨c.setProducer hg hnew, fun _ h => h, (List.append_nil _).symm⟩

theorem addExpr (c : Copying m s) {g : GroupId} {key : ExprKey} (hg : s.memo.Survives g)
    (hkey : s.memo.index.get? key = none) (hinputs : ∀ i ∈ key.inputs, s.memo.Survives i)
    (harity : ∀ n, key.op.arity = some n → key.inputs.length = n) (hlimit : s.memo.checkLimit = .ok ()) :
    Copying m { s with memo := (s.memo.addExpr g key).2 } where
  toInherits := c.toInherits.trans (inherits_addExpr s.memo g key)
  exprs_kept h := expr?_addExpr_of_some s.memo g key (c.exprs_kept h)
  undoable := (rollback_addExpr c.exprs_le g hkey s.newCtes).trans c.undoable
  groups_le := by simpa [Memo.addExpr, modifyGroup] using c.groups_le
  exprs_le := by
    have := c.exprs_le
    simp only [Memo.addExpr, modifyGroup, List.length_append, List.length_singleton]
    omega
  find_eq := c.find_eq
  limit_eq := c.limit_eq
  within n hn _ := by
    have := lt_of_checkLimit hlimit (c.limit_eq.trans hn)
    simp only [Memo.addExpr, modifyGroup, List.length_append, List.length_singleton]
    omega
  wellFormed :=
    { coherent := coherent_addExpr c.wellFormed.coherent hg hkey hinputs harity
      nonempty := nonempty_addExpr fun hx hk _ => c.wellFormed.nonempty hx hk }

theorem addGroup (c : Copying m s) {key : ExprKey} (hkey : s.memo.index.get? key = none)
    (hinputs : ∀ i ∈ key.inputs, s.memo.Survives i)
    (harity : ∀ n, key.op.arity = some n → key.inputs.length = n) (hlimit : s.memo.checkLimit = .ok ())
    (logical : LogicalProperties) (statistics : σ) :
    Copying m
      { s with
        memo := ((s.memo.addGroup logical statistics).2.addExpr (s.memo.addGroup logical statistics).1 key).2 } := by
  have w := c.wellFormed
  have hsize : (s.memo.addGroup logical statistics).2.groups.length = s.memo.groups.length + 1 := by
    simp [Memo.addGroup]
  refine
    { toInherits :=
        (c.toInherits.trans (inherits_addGroup s.memo logical statistics)).trans (inherits_addExpr _ _ key)
      undoable := ?_
      exprs_kept := fun h => expr?_addExpr_of_some _ _ key (c.exprs_kept h)
      groups_le := ?_
      exprs_le := ?_
      find_eq := fun g => (find_addGroup s.memo logical statistics g).trans (c.find_eq g)
      limit_eq := c.limit_eq
      within := fun n hn _ => by
        have := lt_of_checkLimit hlimit (c.limit_eq.trans hn)
        simp only [Memo.addExpr, modifyGroup, List.length_append, List.length_singleton, Memo.addGroup]
        omega
      wellFormed := ⟨?_, ?_⟩ }
  · have hmark : m.mark.exprs ≤ (s.memo.addGroup logical statistics).2.exprs.length := c.exprs_le
    refine (rollback_addExpr hmark _ hkey s.newCtes).trans ?_
    exact (rollback_addGroup c.groups_le w.coherent.links_size logical statistics s.newCtes).trans c.undoable
  · have := c.groups_le
    simp only [Memo.addExpr, modifyGroup, List.length_modify, hsize]
    omega
  · have := c.exprs_le
    simp only [Memo.addExpr, modifyGroup, List.length_append, List.length_singleton, Memo.addGroup]
    omega
  · exact coherent_addExpr (coherent_addGroup logical statistics w.coherent)
      (survives_new logical statistics w.coherent)
      hkey (fun i hi => survives_addGroup s.memo logical statistics (hinputs i hi)) harity
  · refine nonempty_addExpr fun hx hk hne => ?_
    rcases stores_addGroup s.memo logical statistics hx with hx | ⟨he, -⟩
    · rw [find_addGroup] at hk
      exact w.nonempty hx hk
    · exact absurd he hne

/-- A new expression goes to the group it is meant for, or to a new one. -/
theorem yields_chooseGroup (c : Copying m s) (source : PropertySource σ) {target : Option GroupId}
    (htarget : ∀ t, target = some t → m.find t = t) (key : ExprKey) :
    Yields (chooseGroup source target key : InsertM σ κ GroupId) s
      (fun g u => (u = s ∧ s.memo.Survives g ∧ target = some g) ∨ ∃ logical statistics, target = none ∧
        u = { s with memo := (s.memo.addGroup logical statistics).2 } ∧
          g = (s.memo.addGroup logical statistics).1)
      (fun _ u => Undoable m u) := by
  have known : ∀ {t g}, target = some t → s.memo.checkedFind t = .ok g →
      s.memo.Survives g ∧ target = some g := by
    intro t g ht hg
    obtain ⟨hk, rfl⟩ := checkedFind_ok hg
    refine ⟨survives_find hk, ?_⟩
    rw [c.find_eq, htarget t ht]
    exact ht
  unfold chooseGroup
  refine .bind_get ?_
  split
  · refine .bind_lift (fun _ _ => ?_) (fun _ _ => c.undoable)
    exact .of_lift (fun g hg => .inl ⟨rfl, known rfl hg⟩) (fun _ _ => c.undoable)
  · exact .of_lift (fun g hg => .inl ⟨rfl, known rfl hg⟩) (fun _ _ => c.undoable)
  · refine .bind_lift (fun built _ => ?_) (fun _ _ => c.undoable)
    exact .bind_set (.of_pure (.inr ⟨built.1, built.2, rfl, rfl, rfl⟩))
  · exact .of_throw c.undoable

/-- Where an expression is placed, there is a surviving group. -/
theorem yields_place (c : Copying m s) (source : PropertySource σ) {target : Option GroupId}
    (htarget : ∀ t, target = some t → m.find t = t) {key : ExprKey} (hinputs : ∀ i ∈ key.inputs, s.memo.Survives i)
    (harity : ∀ n, key.op.arity = some n → key.inputs.length = n) :
    Yields (place source target key : InsertM σ κ Placed) s
      (fun placed u => Continues m s (requested target placed.group) u ∧ u.memo.Survives placed.group)
      (fun _ u => Undoable m u) := by
  unfold place
  refine .bind_get ?_
  dsimp only
  split
  · refine .bind_lift (fun e he => ?_) (fun _ _ => c.undoable)
    have hk : s.memo.Survives (s.memo.find e.group) :=
      survives_find (c.wellFormed.coherent.group_known (expr_ok he))
    refine .bind (c.yields_requestMerge target _) ?_
    rintro _ u ⟨cu, hu⟩
    exact .of_pure ⟨cu, hu ▸ hk⟩
  · rename_i hkey
    refine .bind_lift (fun _ hlimit => ?_) (fun _ _ => c.undoable)
    refine .bind (c.yields_chooseGroup source htarget key) ?_
    rintro g u (⟨rfl, hg, rfl⟩ | ⟨logical, statistics, rfl, rfl, rfl⟩)
    · refine .of_modifyGet ⟨⟨c.addExpr hg hkey hinputs harity hlimit, fun k hk => (survives_addExpr_iff _ _ _ k).2 hk, ?_⟩,
        (survives_addExpr_iff _ _ _ _).2 hg⟩
      simp [requested]
    · refine .of_modifyGet ⟨⟨c.addGroup hkey hinputs harity hlimit logical statistics, fun k hk => ?_, ?_⟩, ?_⟩
      · exact (survives_addExpr_iff _ _ _ k).2 (survives_addGroup _ logical statistics hk)
      · exact (List.append_nil _).symm
      · exact (survives_addExpr_iff _ _ _ _).2 (survives_new logical statistics c.wellFormed.coherent)

end Copying

theorem checkInputs_ok {op : Operator} {k : Nat} {u : Unit} (h : checkInputs op k = .ok u) (n : Nat)
    (hn : op.arity = some n) : k = n := by
  unfold checkInputs at h
  rw [hn] at h
  dsimp only at h
  split at h
  · assumption
  · cases h

theorem physicalInputs_ok {m : Memo σ κ} {t : Option GroupId} {op : PhysicalOp} {inputs : List Expr}
    {groups : List GroupId} (h : m.physicalInputs t op inputs = .ok groups) :
    groups.length = inputs.length ∧ ∀ g ∈ groups, m.Survives g := by
  unfold physicalInputs at h
  split at h
  · cases h
  · split at h
    · rename_i named hnamed
      have hall := forall₂_of_mapM_ok h
      refine ⟨hall.length_eq.symm.trans (forall₂_of_mapM_some hnamed).length_eq.symm, fun g hg => ?_⟩
      obtain ⟨a, -, ha⟩ := exists_of_mem_right hall hg
      obtain ⟨hk, rfl⟩ := checkedFind_ok ha
      exact survives_find hk
    · cases h

mutual

/-- A tree is copied to a surviving group. The induction is on the tree; its inputs have no target. -/
theorem Copying.yields_copyIn {m : Memo σ κ} (source : PropertySource σ) {target : Option GroupId}
    (htarget : ∀ t, target = some t → m.find t = t) (depth : Nat) :
    ∀ (e : Expr) {s : Insertion σ κ}, Copying m s →
      Yields (copyIn source target depth e : InsertM σ κ Placed) s
        (fun placed u => Continues m s (requested target placed.group) u ∧ u.memo.Survives placed.group)
        (fun _ u => Undoable m u)
  | .group g, s, c => by
    unfold copyIn
    refine .bind_lift (fun _ _ => ?_) (fun _ _ => c.undoable)
    refine .bind_get (.bind_lift (fun k hk => ?_) (fun _ _ => c.undoable))
    obtain ⟨hknown, rfl⟩ := checkedFind_ok hk
    have hsurvives := survives_find hknown
    refine .bind (c.yields_requestMerge target _) ?_
    rintro _ u ⟨cu, hu⟩
    exact .of_pure ⟨cu, hu ▸ hsurvives⟩
  | .node (.physical op) inputs, s, c => by
    unfold copyIn
    refine .bind_lift (fun _ _ => ?_) (fun _ _ => c.undoable)
    refine .bind_lift (fun _ harity => ?_) (fun _ _ => c.undoable)
    refine .bind_get (.bind_lift (fun groups hgroups => ?_) (fun _ _ => c.undoable))
    obtain ⟨hlength, hsurvive⟩ := physicalInputs_ok hgroups
    refine c.yields_place source htarget hsurvive fun n hn => ?_
    exact hlength.trans (checkInputs_ok harity n hn)
  | .node (.logical op) inputs, s, c => by
    unfold copyIn
    refine .bind_lift (fun _ _ => ?_) (fun _ _ => c.undoable)
    refine .bind_lift (fun _ harity => ?_) (fun _ _ => c.undoable)
    refine .bind (Copying.yields_copyInputs source (depth + 1) (producedCte? op) inputs c) ?_
    rintro groups u ⟨hu, hlength, hsurvive⟩
    refine .mono (hu.copying.yields_place source htarget hsurvive fun n hn => ?_) ?_ (fun _ _ h => h)
    · exact hlength.trans (checkInputs_ok harity n hn)
    · rintro placed v ⟨hv, hplaced⟩
      exact ⟨hu.trans hv, hplaced⟩

theorem Copying.yields_copyInputs {m : Memo σ κ} (source : PropertySource σ) (depth : Nat) (cte : Option CteId) :
    ∀ (es : List Expr) {s : Insertion σ κ}, Copying m s →
      Yields (copyInputs source depth cte es : InsertM σ κ (List GroupId)) s
        (fun groups u => Continues m s [] u ∧ groups.length = es.length ∧ ∀ g ∈ groups, u.memo.Survives g)
        (fun _ u => Undoable m u)
  | [], s, c => by
    unfold copyInputs
    exact .of_pure ⟨c.continues_self, rfl, fun g hg => absurd hg List.not_mem_nil⟩
  | e :: es, s, c => by
    unfold copyInputs
    refine .bind (Copying.yields_copyIn source m.target_none depth e c) ?_
    rintro placed u ⟨hu, hplaced⟩
    refine .bind (hu.copying.yields_registerProducer cte hplaced) ?_
    rintro _ v hv
    refine .bind (Copying.yields_copyInputs source depth none es hv.copying) ?_
    rintro groups w ⟨hw, hlength, hsurvive⟩
    refine .of_pure ⟨hu.trans (hv.trans hw), ?_, fun g hg => ?_⟩
    · rw [List.length_cons, List.length_cons, hlength]
    · rcases List.mem_cons.1 hg with rfl | hg
      · exact hw.survives _ (hv.survives _ hplaced)
      · exact hsurvive g hg

end

end Cascade.Memo
