import Cascade.Proofs.Memo.Representation
import Cascade.Proofs.Stateful
import Cascade.Rule.All

/-!
Bindings. A binding of an expression is a tree with its operator on top, and below it trees of the groups that are its
inputs: what references to groups have and live expressions over trees hand on (`OfTrees`) is true of those
(`OfTrees.of_bindings`). Every operator of such a tree is that of an expression of the memo (`Drawn`). What holds of the
alternatives for all bindings holds of all alternatives of a rule (`Rule.yields_alternatives`).
-/

namespace Cascade

namespace Memo

variable {σ κ : Type}

mutual

/-- A tree of a group: the group itself, or an expression of it over trees of its inputs. -/
inductive Drawn (m : Memo σ κ) : GroupId → Expr → Prop
  | group {g k : GroupId} (h : m.find k = m.find g) : Drawn m g (.group k)
  | node {g : GroupId} {id : ExprId} {e : MemoExpr} {op : LogicalOp} {inputs : List Expr} (he : m.expr? id = some e)
    (hop : e.op = .logical op) (hg : m.find e.group = m.find g) (hinputs : DrawnAll m e.inputs inputs) :
    Drawn m g (.node (.logical op) inputs)

/-- Trees of groups. -/
inductive DrawnAll (m : Memo σ κ) : List GroupId → List Expr → Prop
  | nil : DrawnAll m [] []
  | cons {g : GroupId} {gs : List GroupId} {e : Expr} {es : List Expr} (h : Drawn m g e) (hs : DrawnAll m gs es) :
    DrawnAll m (g :: gs) (e :: es)

end

/-- A binding of an expression. -/
inductive Binds (m : Memo σ κ) (id : ExprId) (p : Pattern) : Expr → Prop
  | intro {e : MemoExpr} {op : LogicalOp} {inputs : List Expr} (he : m.expr? id = some e) (hop : e.op = .logical op)
    (hroot : p.matchesRoot op = true) (hinputs : DrawnAll m e.inputs inputs) :
    Binds m id p (.node (.logical op) inputs)

variable {m : Memo σ κ}

theorem drawnAll_of_forall₂ {gs : List GroupId} {es : List Expr} (h : List.Forall₂ m.Drawn gs es) : DrawnAll m gs es := by
  induction h with
  | nil => exact .nil
  | cons h _ ih => exact .cons h ih

theorem of_mem_members (c : m.Coherent) {g : GroupId} {id : ExprId} {e : MemoExpr} (h : (id, e) ∈ m.members g) :
    m.Live id e ∧ m.find e.group = m.find g := by
  unfold members at h
  split at h
  · rename_i x hx
    obtain ⟨i, hi, h⟩ := List.mem_filterMap.1 h
    obtain ⟨f, hf, h⟩ := Option.map_eq_some_iff.1 h
    cases h
    obtain ⟨f, hlive, hgroup⟩ := (c.members_iff hx id).1 hi
    cases hlive.1.symm.trans hf
    exact ⟨hlive, hgroup⟩
  · cases h

theorem eq_logical_of_logical? {o : Operator} {op : LogicalOp} (h : o.logical? = some op) : o = .logical op := by
  cases o <;> cases h
  rfl

/-- A property of groups and trees that a reference to a group has, and with trees of its inputs a live expression of it. -/
structure OfTrees (m : Memo σ κ) (P : GroupId → Expr → Prop) : Prop where
  group : ∀ {g k}, m.find k = m.find g → P g (.group k)
  node : ∀ {g id e op inputs}, m.Live id e → e.op = .logical op → m.find e.group = m.find g →
    List.Forall₂ P e.inputs inputs → P g (.node (.logical op) inputs)

variable {P : GroupId → Expr → Prop}

theorem OfTrees.of_expandBelow (hP : m.OfTrees P) (c : m.Coherent) {levels : Nat} {path : List GroupId} {g k : GroupId}
    {t : Expr} (hg : m.find k = m.find g) (h : m.expandBelow path k levels = .ok t) : P g t := by
  -- on the levels the tree may have
  induction levels generalizing path g k t with
  | zero => cases h
  | succ levels ih =>
    unfold expandBelow at h
    dsimp only at h
    split at h
    · cases h
      exact hP.group ((m.find_find k).trans hg)
    · rename_i id e hfind
      obtain ⟨inputs, hinputs, h⟩ := exists_of_bind_ok h
      cases h
      obtain ⟨he, hgroup⟩ := of_mem_members c (List.mem_of_find?_eq_some hfind)
      have hlogical := List.find?_some hfind
      simp only [Bool.and_eq_true, Operator.isLogical] at hlogical
      obtain ⟨op, hop⟩ := Option.isSome_iff_exists.1 hlogical.1
      have hop := eq_logical_of_logical? hop
      rw [hop]
      exact hP.node he hop ((hgroup.trans (m.find_find k)).trans hg) ((forall₂_of_mapM_ok hinputs).imp fun _ _ => ih rfl)

theorem mem_cappedProduct {α : Type} {limit : Nat} {choices : List (List α)} {chosen : List α}
    (h : chosen ∈ cappedProduct limit choices) : List.Forall₂ (fun a choice => a ∈ choice) chosen choices := by
  -- on the choices that are left, after those that were made
  have hfold : ∀ (rest done : List (List α)) (acc : List (List α)),
      (∀ l ∈ acc, List.Forall₂ (fun a choice => a ∈ choice) l done) →
      ∀ l ∈ rest.foldl (fun acc choice => (acc.flatMap fun l => choice.map fun a => l ++ [a]).take limit) acc,
        List.Forall₂ (fun a choice => a ∈ choice) l (done ++ rest) := by
    intro rest
    induction rest with
    | nil =>
      intro done acc hacc l hl
      rw [List.append_nil]
      exact hacc l hl
    | cons choice rest ih =>
      intro done acc hacc l hl
      rw [List.append_cons]
      refine ih (done ++ [choice]) _ (fun l hl => ?_) l hl
      obtain ⟨k, hk, hl⟩ := List.mem_flatMap.1 (List.mem_of_mem_take hl)
      obtain ⟨a, ha, rfl⟩ := List.mem_map.1 hl
      exact List.rel_append (hacc k hk) (.cons ha .nil)
  exact hfold choices [] [[]] (List.forall_mem_singleton.2 .nil) chosen h

/-- What every step of a fold keeps is true in the end. -/
theorem of_foldlM_ok {ε α β : Type} {f : β → α → Except ε β} {P : β → Prop} {l : List α} {b c : β}
    (hstep : ∀ a ∈ l, ∀ b c, P b → f b a = .ok c → P c) (hb : P b) (h : l.foldlM f b = .ok c) : P c := by
  induction l generalizing b with
  | nil =>
    cases h
    exact hb
  | cons a l ih =>
    rw [List.foldlM_cons] at h
    obtain ⟨d, hd, h⟩ := exists_of_bind_ok h
    exact ih (fun a ha => hstep a (List.mem_cons_of_mem _ ha)) (hstep a (List.mem_cons_self ..) b d hb hd) h

/-- An expression over trees of its inputs. -/
structure Rooted (m : Memo σ κ) (P : GroupId → Expr → Prop) (id : ExprId) (p : Pattern) (t : Expr) (e : MemoExpr)
    (op : LogicalOp) (inputs : List Expr) : Prop where
  expr : m.expr? id = some e
  op_eq : e.op = .logical op
  root : p.matchesRoot op = true
  parts : List.Forall₂ P e.inputs inputs
  eq : t = .node (.logical op) inputs

theorem OfTrees.of_rooted (hP : m.OfTrees P) {id : ExprId} {p : Pattern} {t : Expr} {f : MemoExpr} {op : LogicalOp}
    {inputs : List Expr} (h : m.Rooted P id p t f op inputs) {e : MemoExpr} {g : GroupId} (he : m.Live id e)
    (hg : m.find e.group = m.find g) : P g t := by
  cases h.expr.symm.trans he.1
  exact h.eq ▸ hP.node he h.op_eq hg h.parts

/-- The trees of one input that are bound to a pattern. -/
def bindInput (m : Memo σ κ) (limit : Nat) (g : GroupId) : Pattern → Except PlanError (List Expr)
  | .leaf | .multiLeaf => pure [.group (m.find g)]
  | .tree => do
    let tree ← m.expand (m.find g)
    pure [tree]
  | .operator kind inputs => do
    let found ← (m.members (m.find g)).foldlM (fun acc x =>
      if limit ≤ acc.length then pure acc
      else do
        let more ← m.bindExpr limit x.1 (.operator kind inputs)
        pure (acc ++ more)) []
    pure (found.take limit)

theorem bindInputs_cons (m : Memo σ κ) (limit : Nat) (rest : Bool) (g : GroupId) (groups : List GroupId) (p : Pattern)
    (ps : List Pattern) : m.bindInputs limit rest (g :: groups) (p :: ps) = (do
      let bound ← m.bindInput limit g p
      if bound.isEmpty then pure none
      else
        match ← m.bindInputs limit rest groups ps with
        | none => pure none
        | some choices => pure (some (bound :: choices))) := by
  conv_lhs => unfold bindInputs
  cases p with
  | leaf | multiLeaf => rfl
  | tree | operator => exact (bind_assoc ..).symm

theorem OfTrees.of_bindInput (hP : m.OfTrees P) (c : m.Coherent) {limit : Nat} {p : Pattern} {g : GroupId}
    {bound : List Expr} (hexpr : ∀ {id trees}, m.bindExpr limit id p = .ok trees → ∀ t ∈ trees,
      ∃ e op inputs, m.Rooted P id p t e op inputs) (h : m.bindInput limit g p = .ok bound) : ∀ t ∈ bound, P g t := by
  cases p with
  | leaf | multiLeaf =>
    cases h
    exact List.forall_mem_singleton.2 (hP.group (m.find_find g))
  | tree =>
    obtain ⟨tree, htree, h⟩ := exists_of_bind_ok h
    cases h
    exact List.forall_mem_singleton.2 (hP.of_expandBelow c (m.find_find g) htree)
  | operator kind patterns =>
    obtain ⟨found, hfound, h⟩ := exists_of_bind_ok h
    cases h
    intro t ht
    -- of the members, one after the other
    refine of_foldlM_ok (P := fun acc => ∀ t ∈ acc, P g t) ?_ (List.forall_mem_nil _) hfound t (List.mem_of_mem_take ht)
    rintro ⟨id, e⟩ hmem acc next hacc hnext
    obtain ⟨he, hg⟩ := of_mem_members c hmem
    split at hnext
    · cases hnext
      exact hacc
    · obtain ⟨more, hmore, hnext⟩ := exists_of_bind_ok hnext
      cases hnext
      refine List.forall_mem_append.2 ⟨hacc, fun t ht => ?_⟩
      obtain ⟨_, _, _, hrooted⟩ := hexpr hmore t ht
      exact hP.of_rooted hrooted he (hg.trans (m.find_find g))

mutual

theorem OfTrees.of_bindExpr (hP : m.OfTrees P) (c : m.Coherent) {limit : Nat} :
    ∀ {p : Pattern} {id : ExprId} {trees : List Expr}, m.bindExpr limit id p = .ok trees → ∀ t ∈ trees,
      ∃ e op inputs, m.Rooted P id p t e op inputs
  | .operator kind patterns, id, trees, h, t, ht => by
    unfold bindExpr at h
    obtain ⟨e, he, h⟩ := exists_of_bind_ok h
    split at h
    · cases h
      cases ht
    · rename_i op hop
      split at h
      · cases h
        cases ht
      · rename_i hroot
        obtain ⟨bound, hbound, h⟩ := exists_of_bind_ok h
        cases bound with
        | none =>
          cases h
          cases ht
        | some choices =>
          cases h
          obtain ⟨inputs, hinputs, rfl⟩ := List.mem_map.1 ht
          refine ⟨e, op, inputs, expr_ok he, eq_logical_of_logical? hop, by simpa using hroot, ?_, rfl⟩
          have hchoices := OfTrees.of_bindInputs hP c hbound
          have hchosen := mem_cappedProduct hinputs
          rw [List.forall₂_iff_get] at hchoices hchosen ⊢
          obtain ⟨hlength, hchoices⟩ := hchoices
          obtain ⟨hlength', hchosen⟩ := hchosen
          refine ⟨hlength.trans hlength'.symm, fun i hi hi' => ?_⟩
          exact hchoices i hi (hlength ▸ hi) _ (hchosen i hi' (hlength ▸ hi))
  | .leaf, _, _, h, t, ht | .tree, _, _, h, t, ht | .multiLeaf, _, _, h, t, ht => by
    unfold bindExpr at h
    cases h
    cases ht

theorem OfTrees.of_bindInputs (hP : m.OfTrees P) (c : m.Coherent) {limit : Nat} {rest : Bool} :
    ∀ {ps : List Pattern} {groups : List GroupId} {choices : List (List Expr)},
      m.bindInputs limit rest groups ps = .ok (some choices) →
      List.Forall₂ (fun g choice => ∀ t ∈ choice, P g t) groups choices
  | _, [], choices, h => by
    unfold bindInputs at h
    cases h
    exact .nil
  | [], g :: groups, choices, h => by
    unfold bindInputs at h
    split at h
    · cases h
      rw [List.forall₂_map_right_iff, List.forall₂_same]
      intro k _ t ht
      rw [List.mem_singleton.1 ht]
      exact hP.group (m.find_find k)
    · cases h
  | p :: ps, g :: groups, choices, h => by
    rw [bindInputs_cons] at h
    obtain ⟨bound, hbound, h⟩ := exists_of_bind_ok h
    split at h
    · cases h
    · obtain ⟨others, hothers, h⟩ := exists_of_bind_ok h
      cases others with
      | none => cases h
      | some others =>
        cases h
        have hfirst := hP.of_bindInput c (fun h => OfTrees.of_bindExpr hP c h) hbound
        exact .cons hfirst (OfTrees.of_bindInputs hP c hothers)

end

/-- What is bound to a pattern is the expression over trees of its inputs. -/
theorem OfTrees.of_bindings (hP : m.OfTrees P) (c : m.Coherent) {limit : Nat} {id : ExprId} {p : Pattern}
    {trees : List Expr} (h : m.bindings id p limit = .ok trees) :
    ∀ t ∈ trees, ∃ e op inputs, m.Rooted P id p t e op inputs := by
  unfold bindings at h
  split at h
  · exact hP.of_bindExpr c h
  · cases h

theorem ofTrees_drawn (m : Memo σ κ) : m.OfTrees m.Drawn where
  group := .group
  node he hop hg hinputs := .node he.1 hop hg (drawnAll_of_forall₂ hinputs)

/-- What is bound to the pattern of a rule. -/
theorem binds_of_bindings (c : m.Coherent) {limit : Nat} {id : ExprId} {p : Pattern} {trees : List Expr}
    (h : m.bindings id p limit = .ok trees) : ∀ t ∈ trees, m.Binds id p t := by
  intro t ht
  obtain ⟨e, op, inputs, hrooted⟩ := m.ofTrees_drawn.of_bindings c h t ht
  exact hrooted.eq ▸ .intro hrooted.expr hrooted.op_eq hrooted.root (drawnAll_of_forall₂ hrooted.parts)

/-- The bindings of members of a group are trees of the group. -/
theorem Binds.drawn {id : ExprId} {p : Pattern} {t : Expr} (h : m.Binds id p t) {e : MemoExpr} {g : GroupId}
    (he : m.expr? id = some e) (hg : m.find e.group = m.find g) : m.Drawn g t := by
  cases h with | intro hf hop _ hinputs => ?_
  cases hf.symm.trans he
  exact .node he hop hg hinputs

end Memo

namespace Rule

variable {σ κ : Type} {ctx : RuleContext σ κ} {columns : Columns}

/-- What holds of the alternatives for every binding holds of all. -/
theorem yields_alternatives (rule : Rule σ κ) (c : ctx.memo.Coherent) {id : ExprId} {P : Expr → Prop}
    (h : ∀ t, ctx.memo.Binds id rule.pattern t → ∀ columns,
      Yields (rule.transform ctx t) columns (fun l _ => ∀ x ∈ l, P x) (fun _ _ => True)) :
    Yields (rule.alternatives ctx id) columns (fun l _ => ∀ x ∈ l, P x) (fun _ _ => True) := by
  refine .bind_lift (fun trees htrees => ?_) fun _ _ => trivial
  have htrees := Memo.binds_of_bindings c htrees
  refine (Yields.mapM (fun t ht => h t (htrees t ht)) columns).bind fun ls _ hls => .of_pure fun x hx => ?_
  obtain ⟨l, hl, hx⟩ := List.mem_flatten.1 hx
  exact hls l hl x hx

end Rule
end Cascade
