import Cascade.Proofs.Memo.Deriving
import Cascade.Proofs.Memo.History

/-!
Insertions made again. A memo holds a tree if it finds each operator of the tree over what it holds the
inputs in (`Finds`). It holds every tree it has copied, and what one memo holds is held by all that come
of it, in the groups its groups were merged into (`Finds.represented`). A tree that is held is copied
without a change (`Finds.yields_copyIn`), so to insert a tree once more changes nothing (`insert_again`).
-/

namespace Cascade.Memo

variable {σ κ : Type}

mutual

/-- Where copying a tree to a given group, or wherever it belongs, finds it. -/
inductive Finds (m : Memo σ κ) : Option GroupId → Nat → Expr → GroupId → Prop
  | group {target : Option GroupId} {depth : Nat} {g : GroupId} (hdepth : checkDepth depth = .ok ())
      (hknown : m.Knows g) (htarget : ∀ t ∈ target, t = m.find g) : Finds m target depth (.group g) (m.find g)
  /-- a physical operator is given a group -/
  | physical {depth : Nat} {op : PhysicalOp} {inputs : List Expr} {named : List GroupId} {id : ExprId} {x : MemoExpr}
      (hdepth : checkDepth depth = .ok ()) (hnamed : inputs.mapM Expr.group? = some named)
      (hknown : ∀ g ∈ named, m.Knows g) (hx : m.Live id x) (hop : x.op = .physical op)
      (hinputs : x.inputs = named.map m.find) :
      Finds m (some (m.find x.group)) depth (.node (.physical op) inputs) (m.find x.group)
  | logical {target : Option GroupId} {depth : Nat} {op : LogicalOp} {inputs : List Expr} {id : ExprId} {x : MemoExpr}
      (hdepth : checkDepth depth = .ok ()) (hx : m.Live id x) (hop : x.op = .logical op)
      (hinputs : FindsAll m (depth + 1) (producedCte? op) inputs x.inputs)
      (htarget : ∀ t ∈ target, t = m.find x.group) :
      Finds m target depth (.node (.logical op) inputs) (m.find x.group)

/-- Where copying inputs finds them; the first one can be known as a producer. -/
inductive FindsAll (m : Memo σ κ) : Nat → Option CteId → List Expr → List GroupId → Prop
  | nil {depth : Nat} {cte : Option CteId} : FindsAll m depth cte [] []
  | cons {depth : Nat} {cte : Option CteId} {e : Expr} {es : List Expr} {g : GroupId} {gs : List GroupId}
      (he : Finds m none depth e g) (hcte : ∀ c ∈ cte, m.cteProducers.contains c = true)
      (hes : FindsAll m depth none es gs) : FindsAll m depth cte (e :: es) (g :: gs)

end

/-- The second memo agrees with itself and has each group and each live expression of the first one, up to
merges. -/
structure Represents (m n : Memo σ κ) : Prop where
  coherent : n.Coherent
  knows : ∀ {g}, m.Knows g → n.Knows g
  find : ∀ {g h}, m.find g = m.find h → n.find g = n.find h
  exprs : ∀ {id e}, m.Live id e → ∃ j f, n.Live j f ∧ f.op = e.op ∧ f.inputs = e.inputs.map n.find ∧
    n.find f.group = n.find e.group
  producers : ∀ {cte}, m.cteProducers.contains cte = true → n.cteProducers.contains cte = true

/-- The second memo has the groups, links, live expressions and producers of the first one. -/
structure Retains (m n : Memo σ κ) : Prop where
  knows : ∀ {g}, m.Knows g → n.Knows g
  find : ∀ g, n.find g = m.find g
  exprs : ∀ {id e}, m.Live id e → n.Live id e
  producers : ∀ {cte}, m.cteProducers.contains cte = true → n.cteProducers.contains cte = true

section

variable {m n o : Memo σ κ}

theorem Retains.refl (m : Memo σ κ) : Retains m m := ⟨id, fun _ => rfl, id, id⟩

theorem Retains.trans (h : Retains m n) (k : Retains n o) : Retains m o where
  knows hg := k.knows (h.knows hg)
  find g := (k.find g).trans (h.find g)
  exprs he := k.exprs (h.exprs he)
  producers hc := k.producers (h.producers hc)

theorem retains_addGroup (m : Memo σ κ) (logical : LogicalProperties) (statistics : σ) :
    Retains m (m.addGroup logical statistics).2 :=
  ⟨knows_addGroup m logical statistics, find_addGroup m logical statistics, id, id⟩

theorem retains_addExpr (m : Memo σ κ) (g : GroupId) (key : ExprKey) : Retains m (m.addExpr g key).2 where
  knows := (Grows.addExpr m g key).knows
  find _ := rfl
  exprs he := (live_addExpr_iff m g key _ _).2 (.inr he)
  producers := id

theorem retains_setProducer (m : Memo σ κ) (cte : CteId) (g : GroupId) :
    Retains m { m with cteProducers := m.cteProducers.set cte g } where
  knows := id
  find _ := rfl
  exprs := id
  producers hk := (Lookup.contains_set_iff ..).2 (.inl hk)

theorem Coherent.map_find_inputs (c : m.Coherent) {id : ExprId} {e : MemoExpr} (he : m.Live id e) :
    e.inputs.map m.find = e.inputs :=
  (List.map_congr_left fun _ hg => (c.input_survives he hg).2).trans (List.map_id _)

theorem Retains.represents (h : Retains m n) (c : n.Coherent) : Represents m n where
  coherent := c
  knows := h.knows
  find {g k} hgk := by rw [h.find, h.find, hgk]
  exprs he := ⟨_, _, h.exprs he, rfl, (c.map_find_inputs (h.exprs he)).symm, rfl⟩
  producers := h.producers

/-- A merge leaves an expression for each there was. -/
theorem Progress.represents {merges : List Merge} (h : Progress m merges n []) (c : n.Coherent) : Represents m n where
  coherent := c
  knows {g} hg := (h.knows_iff g).2 hg
  find := h.find
  exprs {id e} he := by
    obtain ⟨j, f, hf, hop, hrelated⟩ := h.represented he
    obtain ⟨hgroup, hinputs⟩ := hrelated n.Same c.same_congruence.toSettles
    refine ⟨j, f, hf, hop, ?_, hgroup⟩
    rw [← c.map_find_inputs hf]
    exact (forall₂_map_eq_iff n.find _ _).1 hinputs
  producers {cte} hc := by
    unfold Lookup.contains at *
    obtain ⟨g, hg⟩ := Option.isSome_iff_exists.1 hc
    have hn : n.cteProducer? cte = some (n.find (m.find g)) := h.producers (congrArg (Option.map m.find) hg)
    obtain ⟨k, hk, -⟩ := Option.map_eq_some_iff.1 hn
    rw [hk]
    rfl

theorem Represents.target (h : Represents m n) {target : Option GroupId} {g : GroupId}
    (htarget : ∀ t ∈ target, t = m.find g) : ∀ t ∈ target.map n.find, t = n.find g := by
  intro t ht
  obtain ⟨t', ht', rfl⟩ := Option.map_eq_some_iff.1 ht
  rw [htarget t' ht']
  exact h.find (m.find_find g)

mutual

/-- What a memo finds, one that represents it finds too. -/
theorem Finds.represented (h : Represents m n) {target : Option GroupId} {depth : Nat} {e : Expr} {g : GroupId} :
    Finds m target depth e g → Finds n (target.map n.find) depth e (n.find g)
  | .group (g := k) hdepth hknown htarget => by
    rw [h.find (m.find_find k)]
    exact .group hdepth (h.knows hknown) (h.target htarget)
  | .physical (x := x) hdepth hnamed hknown hx hop hinputs => by
    obtain ⟨j, y, hy, hyop, hyinputs, hygroup⟩ := h.exprs hx
    rw [Option.map_some, h.find (m.find_find x.group), ← hygroup]
    refine .physical hdepth hnamed (fun k hk => h.knows (hknown k hk)) hy (hyop.trans hop) ?_
    rw [hyinputs, hinputs, List.map_map]
    exact List.map_congr_left fun k _ => h.find (m.find_find k)
  | .logical (x := x) hdepth hx hop hinputs htarget => by
    obtain ⟨j, y, hy, hyop, hyinputs, hygroup⟩ := h.exprs hx
    rw [h.find (m.find_find x.group), ← hygroup]
    refine .logical hdepth hy (hyop.trans hop) ?_ (hygroup ▸ h.target htarget)
    rw [hyinputs]
    exact FindsAll.represented h hinputs

theorem FindsAll.represented (h : Represents m n) {depth : Nat} {cte : Option CteId} {es : List Expr}
    {gs : List GroupId} : FindsAll m depth cte es gs → FindsAll n depth cte es (gs.map n.find)
  | .nil => .nil
  | .cons he hcte hes =>
    .cons (Finds.represented h he) (fun c hc => h.producers (hcte c hc)) (FindsAll.represented h hes)

end

end

section Copying

variable {m : Memo σ κ} {s : Insertion σ κ}

theorem memo_requestMerge (target : Option GroupId) (g : GroupId) (s : Insertion σ κ) :
    Yields (requestMerge target g : InsertM σ κ Unit) s (fun _ u => u.memo = s.memo) (fun _ _ => False) := by
  cases target with
  | none => exact .of_pure rfl
  | some t =>
    unfold requestMerge
    dsimp only
    split
    · exact .of_pure rfl
    · refine .of_modify ?_
      rfl

/-- No merge is requested of a group with itself. -/
theorem requestMerge_eq {target : Option GroupId} {g : GroupId} (htarget : ∀ t ∈ target, t = g) :
    (requestMerge target g : InsertM σ κ Unit) = pure () := by
  cases target with
  | none => rfl
  | some t => exact if_pos (htarget t rfl)

theorem retains_registerProducer (cte : Option CteId) (g : GroupId) (s : Insertion σ κ) :
    Yields (registerProducer cte g : InsertM σ κ Unit) s
      (fun _ u => Retains s.memo u.memo ∧ ∀ c ∈ cte, u.memo.cteProducers.contains c = true) (fun _ _ => False) := by
  cases cte with
  | none => exact .of_pure ⟨.refl s.memo, fun c hc => by cases hc⟩
  | some cte =>
    unfold registerProducer
    refine .of_modify ?_
    split
    · rename_i hknown
      exact ⟨.refl s.memo, fun c hc => Option.some.inj hc ▸ hknown⟩
    · refine ⟨retains_setProducer s.memo cte g, fun c hc => ?_⟩
      rw [← Option.some.inj hc]
      unfold Lookup.contains
      rw [Lookup.get?_set_self]
      rfl

/-- What is placed is found under its key. -/
theorem retains_place (c : s.memo.Coherent) (source : PropertySource σ) (target : Option GroupId) (key : ExprKey) :
    Yields (place source target key : InsertM σ κ Placed) s
      (fun placed u => Retains s.memo u.memo ∧ ∃ id x, u.memo.Live id x ∧ x.key = key ∧
        (u.memo.Survives placed.group → u.memo.find x.group = placed.group)) (fun _ _ => True) := by
  unfold place
  refine .bind_get ?_
  dsimp only
  split
  · rename_i known hknown
    obtain ⟨x, hx, hkey⟩ := (c.index_iff key known).1 hknown
    refine .bind_lift (fun e he => ?_) (fun _ _ => trivial)
    obtain rfl : e = x := Option.some.inj ((expr_ok he).symm.trans hx.1)
    refine .bind ((memo_requestMerge target _ s).mono (fun _ _ => id) fun _ _ h => h.elim) ?_
    rintro _ u hu
    exact .of_pure ⟨hu ▸ .refl s.memo, known, e, hu ▸ hx, hkey, fun _ => hu ▸ rfl⟩
  · refine .bind_lift (fun _ _ => ?_) (fun _ _ => trivial)
    refine .bind (Q := fun _ u => Retains s.memo u.memo) ?_ ?_
    · unfold chooseGroup
      refine .bind_get ?_
      split
      · refine .bind_lift (fun _ _ => ?_) (fun _ _ => trivial)
        exact .of_lift (fun _ _ => .refl s.memo) (fun _ _ => trivial)
      · exact .of_lift (fun _ _ => .refl s.memo) (fun _ _ => trivial)
      · refine .bind_lift (fun built _ => ?_) (fun _ _ => trivial)
        exact .bind_set (.of_pure (retains_addGroup s.memo built.1 built.2))
      · exact .of_throw trivial
    · rintro g u hu
      refine .of_modifyGet ⟨hu.trans (retains_addExpr u.memo g key), (u.memo.addExpr g key).1, newExpr g key, ?_,
        rfl, fun h => h.2⟩
      exact (live_addExpr_iff u.memo g key _ _).2 (.inl ⟨rfl, rfl⟩)

theorem exists_of_physicalInputs {target : Option GroupId} {op : PhysicalOp} {inputs : List Expr}
    {groups : List GroupId} (h : m.physicalInputs target op inputs = .ok groups) :
    ∃ t named, target = some t ∧ inputs.mapM Expr.group? = some named ∧ (∀ g ∈ named, m.Knows g) ∧
      groups = named.map m.find := by
  unfold physicalInputs at h
  split at h
  · cases h
  · rename_i htarget
    rw [Option.isNone_iff_eq_none] at htarget
    obtain ⟨t, rfl⟩ := Option.ne_none_iff_exists'.1 htarget
    split at h
    · rename_i named hnamed
      have hall := (forall₂_of_mapM_ok h).imp fun _ _ hk => checkedFind_ok hk
      refine ⟨t, named, rfl, hnamed, fun g hg => ?_, ?_⟩
      · obtain ⟨_, -, hknown, -⟩ := exists_of_mem_left hall hg
        exact hknown
      · rw [← List.forall₂_eq_eq_eq, List.forall₂_map_right_iff]
        exact (hall.imp fun _ _ hk => hk.2).flip
    · cases h

theorem target_placed {target : Option GroupId} {g : GroupId} :
    ∀ t ∈ target.map (fun _ => g), t = g := by
  intro t ht
  obtain ⟨_, _, rfl⟩ := Option.map_eq_some_iff.1 ht
  rfl

mutual

/-- A tree that was copied is found where it was placed. -/
theorem Copying.yields_copyIn_finds (source : PropertySource σ) {target : Option GroupId}
    (htarget : ∀ t, target = some t → m.find t = t) (depth : Nat) :
    ∀ (e : Expr) {s : Insertion σ κ}, Copying m s →
      Yields (copyIn source target depth e : InsertM σ κ Placed) s
        (fun placed u => Retains s.memo u.memo ∧
          Finds u.memo (target.map fun _ => placed.group) depth e placed.group) (fun _ _ => True)
  | .group g, s, c => by
    unfold copyIn
    refine .bind_lift (fun _ hdepth => ?_) (fun _ _ => trivial)
    refine .bind_get (.bind_lift (fun k hk => ?_) (fun _ _ => trivial))
    obtain ⟨hknown, rfl⟩ := checkedFind_ok hk
    refine .bind ((memo_requestMerge target _ s).mono (fun _ _ => id) fun _ _ h => h.elim) ?_
    rintro _ u hu
    refine .of_pure ⟨hu ▸ .refl s.memo, ?_⟩
    rw [hu]
    exact .group hdepth hknown target_placed
  | .node (.physical op) inputs, s, c => by
    unfold copyIn
    refine .bind_lift (fun _ hdepth => ?_) (fun _ _ => trivial)
    refine .bind_lift (fun _ harity => ?_) (fun _ _ => trivial)
    refine .bind_get (.bind_lift (fun groups hgroups => ?_) (fun _ _ => trivial))
    obtain ⟨hlength, hsurvive⟩ := physicalInputs_ok hgroups
    have hplace := (retains_place c.wellFormed.coherent source target ⟨.physical op, groups⟩).and
      (c.yields_place source htarget hsurvive fun n hn => hlength.trans (checkInputs_ok harity n hn))
    refine hplace.mono ?_ (fun _ _ _ => trivial)
    rintro placed u ⟨⟨hretains, id, x, hx, hkey, hgroup⟩, hu, hplaced⟩
    refine ⟨hretains, ?_⟩
    obtain ⟨t, named, rfl, hnamed, hknown, rfl⟩ := exists_of_physicalInputs hgroups
    rw [Option.map_some, ← hgroup hplaced]
    refine .physical hdepth hnamed (fun k hk => hretains.knows (hknown k hk)) hx (congrArg ExprKey.op hkey) ?_
    rw [show x.inputs = named.map s.memo.find from congrArg ExprKey.inputs hkey]
    exact List.map_congr_left fun k _ => (hretains.find k).symm
  | .node (.logical op) inputs, s, c => by
    unfold copyIn
    refine .bind_lift (fun _ hdepth => ?_) (fun _ _ => trivial)
    refine .bind_lift (fun _ harity => ?_) (fun _ _ => trivial)
    refine .bind ((Copying.yields_copyInputs_finds source (depth + 1) (producedCte? op) inputs c).and
      (Copying.yields_copyInputs source (depth + 1) (producedCte? op) inputs c)) ?_
    rintro groups u ⟨⟨hbefore, hfinds⟩, hu, hlength, hsurvive⟩
    have hplace := (retains_place hu.copying.wellFormed.coherent source target ⟨.logical op, groups⟩).and
      (hu.copying.yields_place source htarget hsurvive fun n hn => hlength.trans (checkInputs_ok harity n hn))
    refine hplace.mono ?_ (fun _ _ _ => trivial)
    rintro placed v ⟨⟨hretains, id, x, hx, hkey, hgroup⟩, hv, hplaced⟩
    refine ⟨hbefore.trans hretains, ?_⟩
    have hinputs : x.inputs = groups := congrArg ExprKey.inputs hkey
    have hfinds := hfinds.represented (hretains.represents hv.copying.wellFormed.coherent)
    rw [← hinputs, hv.copying.wellFormed.coherent.map_find_inputs hx] at hfinds
    have hgroup := hgroup hplaced
    generalize placed.group = g at *
    subst hgroup
    exact .logical hdepth hx (congrArg ExprKey.op hkey) hfinds target_placed

theorem Copying.yields_copyInputs_finds (source : PropertySource σ) (depth : Nat) (cte : Option CteId) :
    ∀ (es : List Expr) {s : Insertion σ κ}, Copying m s →
      Yields (copyInputs source depth cte es : InsertM σ κ (List GroupId)) s
        (fun groups u => Retains s.memo u.memo ∧ FindsAll u.memo depth cte es groups) (fun _ _ => True)
  | [], s, c => by
    unfold copyInputs
    exact .of_pure ⟨.refl s.memo, .nil⟩
  | e :: es, s, c => by
    unfold copyInputs
    refine .bind ((Copying.yields_copyIn_finds source m.target_none depth e c).and
      (Copying.yields_copyIn source m.target_none depth e c)) ?_
    rintro placed u ⟨⟨hfirst, hplaced⟩, hu, hsurvives⟩
    refine .bind (((retains_registerProducer cte placed.group u).mono (fun _ _ => id) fun _ _ h => h.elim).and
      (hu.copying.yields_registerProducer cte hsurvives)) ?_
    rintro _ v ⟨⟨hregister, hcte⟩, hv⟩
    refine .bind ((Copying.yields_copyInputs_finds source depth none es hv.copying).and
      (Copying.yields_copyInputs source depth none es hv.copying)) ?_
    rintro groups w ⟨⟨hrest, hfinds⟩, hw, -⟩
    have hlater := hregister.trans hrest
    refine .of_pure ⟨hfirst.trans hlater, ?_⟩
    have hplaced := hplaced.represented (hlater.represents hw.copying.wellFormed.coherent)
    rw [(hw.survives _ (hv.survives _ hsurvives)).2] at hplaced
    exact .cons hplaced (fun c hc => hrest.producers (hcte c hc)) hfinds

end

theorem checkedFind_eq {g : GroupId} (hg : m.Knows g) : m.checkedFind g = .ok (m.find g) := if_pos hg

theorem physicalInputs_eq {t : GroupId} (op : PhysicalOp) {inputs : List Expr} {named : List GroupId}
    (hnamed : inputs.mapM Expr.group? = some named) (hknown : ∀ g ∈ named, m.Knows g) :
    m.physicalInputs (some t) op inputs = .ok (named.map m.find) := by
  unfold physicalInputs
  rw [hnamed]
  refine mapM_ok_of_forall₂ ?_
  rw [List.forall₂_map_right_iff, List.forall₂_same]
  exact fun g hg => checkedFind_eq (hknown g hg)

theorem checkInputs_eq {op : Operator} {k : Nat} (h : ∀ n, op.arity = some n → k = n) : checkInputs op k = .ok () := by
  unfold checkInputs
  split
  · rename_i n hn
    exact if_pos (h n hn)
  · rfl

theorem FindsAll.length_eq {es : List Expr} {depth : Nat} {cte : Option CteId} {gs : List GroupId}
    (h : FindsAll m depth cte es gs) : es.length = gs.length := by
  induction es generalizing cte gs with
  | nil =>
    cases h
    rfl
  | cons e es ih =>
    cases h with
    | cons _ _ hes => rw [List.length_cons, List.length_cons, ih hes]

theorem Finds.find_eq {target : Option GroupId} {depth : Nat} {e : Expr} {g : GroupId}
    (h : Finds m target depth e g) : m.find g = g := by
  cases h <;> exact m.find_find _

/-- An operator that is found is not added. -/
theorem yields_place_of_live (c : s.memo.Coherent) (source : PropertySource σ) {target : Option GroupId} {id : ExprId}
    {x : MemoExpr} (hx : s.memo.Live id x) (htarget : ∀ t ∈ target, t = s.memo.find x.group) :
    Yields (place source target x.key : InsertM σ κ Placed) s
      (fun placed u => placed = ⟨s.memo.find x.group, none⟩ ∧ u = s) (fun _ _ => False) := by
  unfold place
  refine .bind_get ?_
  dsimp only
  rw [(c.index_iff x.key id).2 ⟨x, hx, rfl⟩]
  dsimp only
  refine .bind_lift (fun e he => ?_) (fun _ he => ?_)
  · obtain rfl : e = x := Option.some.inj ((expr_ok he).symm.trans hx.1)
    rw [requestMerge_eq htarget]
    exact .of_pure ⟨rfl, rfl⟩
  · unfold expr at he
    rw [hx.1] at he
    cases he

theorem yields_registerProducer_of_known {cte : Option CteId}
    (hcte : ∀ c ∈ cte, s.memo.cteProducers.contains c = true) (g : GroupId) :
    Yields (registerProducer cte g : InsertM σ κ Unit) s (fun _ u => u = s) (fun _ _ => False) := by
  cases cte with
  | none => exact .of_pure rfl
  | some cte =>
    unfold registerProducer
    exact .of_modify (if_pos (hcte cte rfl))

mutual

/-- A tree that is found is copied without a change. -/
theorem Finds.yields_copyIn (c : s.memo.Coherent) (source : PropertySource σ) {target : Option GroupId} {depth : Nat}
    {e : Expr} {g : GroupId} : Finds s.memo target depth e g →
      Yields (copyIn source target depth e : InsertM σ κ Placed) s (fun placed u => placed = ⟨g, none⟩ ∧ u = s)
        (fun _ _ => False)
  | .group hdepth hknown htarget => by
    unfold copyIn
    rw [hdepth]
    refine .bind_lift (fun _ _ => .bind_get ?_) (fun _ h => by cases h)
    rw [checkedFind_eq hknown]
    refine .bind_lift (fun k hk => ?_) (fun _ h => by cases h)
    cases hk
    rw [requestMerge_eq htarget]
    exact .of_pure ⟨rfl, rfl⟩
  | @Finds.physical _ _ _ _ op _ named _ x hdepth hnamed hknown hx hop hinputs => by
    have hkey : x.key = ⟨.physical op, named.map s.memo.find⟩ := by rw [MemoExpr.key, hop, hinputs]
    unfold copyIn
    rw [hdepth]
    refine .bind_lift (fun _ _ => ?_) (fun _ h => by cases h)
    refine .bind_lift (fun _ _ => .bind_get ?_) (fun _ h => ?_)
    · rw [physicalInputs_eq op hnamed hknown]
      refine .bind_lift (fun _ h => ?_) (fun _ h => by cases h)
      cases h
      rw [← hkey]
      exact yields_place_of_live c source hx fun t ht => (Option.some.inj ht).symm
    · rw [checkInputs_eq fun n hn => ?_] at h
      · cases h
      · rw [(forall₂_of_mapM_some hnamed).length_eq, ← c.arity hx.1 n (hop ▸ hn), hinputs, List.length_map]
  | @Finds.logical _ _ _ _ _ op _ _ x hdepth hx hop hinputs htarget => by
    have hkey : x.key = ⟨.logical op, x.inputs⟩ := by rw [MemoExpr.key, hop]
    unfold copyIn
    rw [hdepth]
    refine .bind_lift (fun _ _ => ?_) (fun _ h => by cases h)
    refine .bind_lift (fun _ _ => ?_) (fun _ h => ?_)
    · refine .bind (FindsAll.yields_copyInputs c source hinputs) ?_
      rintro _ _ ⟨rfl, rfl⟩
      rw [← hkey]
      exact yields_place_of_live c source hx htarget
    · rw [checkInputs_eq fun n hn => ?_] at h
      · cases h
      · rw [hinputs.length_eq, ← c.arity hx.1 n (hop ▸ hn)]

theorem FindsAll.yields_copyInputs (c : s.memo.Coherent) (source : PropertySource σ) {depth : Nat} {cte : Option CteId}
    {es : List Expr} {gs : List GroupId} : FindsAll s.memo depth cte es gs →
      Yields (copyInputs source depth cte es : InsertM σ κ (List GroupId)) s (fun groups u => groups = gs ∧ u = s)
        (fun _ _ => False)
  | .nil => by
    unfold copyInputs
    exact .of_pure ⟨rfl, rfl⟩
  | .cons he hcte hes => by
    unfold copyInputs
    refine .bind (Finds.yields_copyIn c source he) ?_
    rintro _ u ⟨rfl, hu⟩
    rw [hu]
    refine .bind (yields_registerProducer_of_known hcte _) ?_
    rintro _ v hv
    rw [hv]
    refine .bind (FindsAll.yields_copyInputs c source hes) ?_
    rintro _ _ ⟨rfl, rfl⟩
    exact .of_pure ⟨rfl, rfl⟩

end

end Copying

section

variable [LT κ] [DecidableLT κ] {m n : Memo σ κ}

/-- A tree that is found is not inserted again. -/
theorem Finds.insertAt_eq (c : m.Coherent) (source : PropertySource σ) {target : Option GroupId} {e : Expr}
    {g : GroupId} (h : Finds m target 0 e g) : m.insertAt source target e = (.ok ⟨g, none⟩, m) := by
  have hrun := Finds.yields_copyIn (s := ⟨m, [], []⟩) c source h
  have heq := insertAt_of_copyIn source e hrun.run_eq rfl
  dsimp only at heq
  rw [h.find_eq] at heq
  exact heq

/-- A tree that was inserted is found where it was placed, and there is the group it was meant for. -/
theorem finds_of_insertAt (w : m.WellFormed) {source : PropertySource σ} {target : Option GroupId}
    (htarget : ∀ t, target = some t → m.find t = t) {e : Expr} {placed : Placed}
    (h : m.insertAt source target e = (.ok placed, n)) :
    n.Coherent ∧ Finds n (target.map n.find) 0 e placed.group := by
  have hcopy := Copying.yields_copyIn_finds source htarget 0 e (copying_start w)
  rcases insertAt_cases source e w htarget with ⟨err, heq⟩ | ⟨found, s, after, hrun, heq, hinserted⟩
  · cases congrArg Prod.fst (heq.symm.trans h)
  · cases heq.symm.trans h
    have c := hinserted.wellFormed.coherent
    have hfinds := (hcopy.of_ok hrun).2.represented (hinserted.progress.represents c)
    refine ⟨c, ?_⟩
    rw [Option.map_map] at hfinds
    convert hfinds using 1
    cases target with
    | none => rfl
    | some t =>
      have hsettles := hinserted.progress.settles c.same_congruence.toSettles
      refine congrArg some ?_
      by_cases ht : t = found.group
      · rw [ht]
        rfl
      · refine hsettles.merged (t, found.group) ?_
        rw [hinserted.merges_eq, requested, if_neg ht]
        exact List.mem_singleton_self _

/-- To insert a tree once more, whatever properties are said to be derived of it, finds its group and changes
nothing. -/
theorem insert_again (verify : Bool) (limit : Option Nat) (ops : List (Operation σ κ)) (e : Expr) :
    (∀ source g n, (runAll verify limit ops).insert source e = (.ok g, n) →
      ∀ again, n.insert again e = (.ok g, n)) ∧
    ∀ source t placed n, (runAll verify limit ops).insertInto source t e = (.ok placed, n) →
      ∀ again, n.insertInto again t e = (.ok ⟨placed.group, none⟩, n) := by
  have w := wellFormed_runAll verify limit ops
  generalize runAll verify limit ops = m at w
  refine ⟨fun source g n h again => ?_, fun source t placed n h again => ?_⟩
  · cases hinsert : m.insertAt source none e with
    | mk r after =>
      unfold Memo.insert at h ⊢
      rw [hinsert] at h
      cases r with
      | error err => cases h
      | ok placed =>
        cases h
        obtain ⟨c, hfinds⟩ := finds_of_insertAt w m.target_none hinsert
        have heq := Finds.insertAt_eq c again hfinds
        rw [Option.map_none] at heq
        rw [heq]
        rfl
  · obtain ⟨c, hfinds⟩ := finds_of_insertAt w (m.target_find t) h
    have hextends := (inherits_insertAt source e w (m.target_find t)).1
    rw [show (m.insertAt source (some (m.find t)) e).2 = n from congrArg Prod.snd h] at hextends
    rw [Option.map_some, hextends.find (m.find_find t)] at hfinds
    exact Finds.insertAt_eq c again hfinds

/-- Constants whose groups were merged when they were inserted, and the first rows of the dissolved group. -/
theorem insert_again_merged :
    (∃ g n, (runAll false none (firstRows false ++ [.insertInto (rowSource false) ⟨0⟩ (constants 1)])).insert
        (rowSource false) (firstOf (.group ⟨2⟩)) = (.ok g, n) ∧
      n.find ⟨2⟩ = ⟨0⟩ ∧ n.insert (rowSource true) (firstOf (.group ⟨2⟩)) = (.ok g, n)) ∧
    ∃ placed n, (runAll false none (firstRows false)).insertInto (rowSource false) ⟨0⟩ (constants 1) =
        (.ok placed, n) ∧ n.find ⟨3⟩ = ⟨1⟩ ∧
      n.insertInto (rowSource true) ⟨0⟩ (constants 1) = (.ok ⟨placed.group, none⟩, n) := by
  constructor
  · have hrun : ((runAll false none (firstRows false ++ [.insertInto (rowSource false) ⟨0⟩ (constants 1)])).insert
          (rowSource false) (firstOf (.group ⟨2⟩))).1.isOk = true ∧
        ((runAll false none (firstRows false ++ [.insertInto (rowSource false) ⟨0⟩ (constants 1)])).insert
          (rowSource false) (firstOf (.group ⟨2⟩))).2.find ⟨2⟩ = ⟨0⟩ := by
      decide +kernel
    cases h : (runAll false none (firstRows false ++ [.insertInto (rowSource false) ⟨0⟩ (constants 1)])).insert
        (rowSource false) (firstOf (.group ⟨2⟩)) with
    | mk r n =>
      rw [h] at hrun
      cases r with
      | error err => cases hrun.1
      | ok g => exact ⟨g, n, rfl, hrun.2, (insert_again false none _ _).1 _ g n h _⟩
  · have hrun : ((runAll false none (firstRows false)).insertInto (rowSource false) ⟨0⟩ (constants 1)).1.isOk = true ∧
        ((runAll false none (firstRows false)).insertInto (rowSource false) ⟨0⟩ (constants 1)).2.find ⟨3⟩ = ⟨1⟩ := by
      decide +kernel
    cases h : (runAll false none (firstRows false)).insertInto (rowSource false) ⟨0⟩ (constants 1) with
    | mk r n =>
      rw [h] at hrun
      cases r with
      | error err => cases hrun.1
      | ok placed => exact ⟨placed, n, rfl, hrun.2, (insert_again false none _ _).2 _ ⟨0⟩ placed n h _⟩

end

end Cascade.Memo
