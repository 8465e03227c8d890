import Cascade.Proofs.Memo.Reinsertion
import Cascade.Proofs.Semantics.Query
import Mathlib.Data.Set.Card

/-!
Sharing. A memo that trees without groups were inserted into, and nothing else, has a group of a single
expression for each subtree of them. `Lists` says which tree each group is of: the groups and expressions
of the memo stand in the order of a list without repetition, and a tree is listed after its inputs. To
copy a tree adds to the list just those of its subtrees that are not on it (`Lists.yields_copyIn`), so
equal trees, and no others, share a group (`insertEach_shares`).
-/

namespace Cascade.Memo

variable {σ κ : Type}

mutual

/-- The group that a tree is found in: the one of its operator over the groups of its inputs. -/
def groupOf? (m : Memo σ κ) : Expr → Option GroupId
  | .group g => some (m.find g)
  | .node op inputs => do
    let groups ← m.groupsOf? inputs
    let id ← m.index.get? ⟨op, groups⟩
    (m.expr? id).map (fun e => m.find e.group)

def groupsOf? (m : Memo σ κ) : List Expr → Option (List GroupId)
  | [] => some []
  | e :: es => do
    let g ← m.groupOf? e
    let groups ← m.groupsOf? es
    some (g :: groups)

end

/-- A group is the one of a tree on a list. -/
def Listed (trees : List Expr) (g : GroupId) (t : Expr) : Prop := trees[g.index]? = some t

/-- The groups and the expressions of a memo are those of the trees on a list. -/
structure Lists (m : Memo σ κ) (trees : List Expr) : Prop where
  nodup : trees.Nodup
  exprs_length : m.exprs.length = trees.length
  groups_length : m.groups.length = trees.length
  find_eq : ∀ g, m.find g = g
  /-- a tree has its operator recorded under its group, over the groups of its inputs -/
  exists_live : ∀ {g t}, Listed trees g t → ∃ e inputs, m.Live ⟨g.index⟩ e ∧ e.group = g ∧
    t = .node e.op inputs ∧ List.Forall₂ (Listed trees) e.inputs inputs

section

variable {trees : List Expr}

theorem Listed.append {g : GroupId} {t : Expr} (h : Listed trees g t) (more : List Expr) :
    Listed (trees ++ more) g t := by
  unfold Listed at *
  rw [List.getElem?_append_left (List.getElem?_eq_some_iff.1 h).1, h]

theorem exists_listed_iff {t : Expr} : (∃ g, Listed trees g t) ↔ t ∈ trees := by
  rw [List.mem_iff_getElem?]
  exact ⟨fun ⟨g, h⟩ => ⟨g.index, h⟩, fun ⟨i, h⟩ => ⟨⟨i⟩, h⟩⟩

theorem listed_rightUnique (trees : List Expr) : Relator.RightUnique (Listed trees) :=
  fun _ _ _ ht hu => Option.some.inj (ht.symm.trans hu)

theorem listed_leftUnique (hnodup : trees.Nodup) : Relator.LeftUnique (Listed trees) := by
  intro g k t hg hk
  obtain ⟨hlt, -⟩ := List.getElem?_eq_some_iff.1 hg
  exact congrArg GroupId.mk ((List.getElem?_inj hlt hnodup).1 (hg.trans hk.symm))

theorem listed_concat (trees : List Expr) (t : Expr) : Listed (trees ++ [t]) ⟨trees.length⟩ t :=
  List.getElem?_concat_length

end

section

variable {m : Memo σ κ} {trees : List Expr}

theorem lists_empty (verify : Bool) (limit : Option Nat) : Lists (empty verify limit : Memo σ κ) [] where
  nodup := .nil
  exprs_length := rfl
  groups_length := rfl
  find_eq g := congrArg GroupId.mk (Links.find_of_size_le _ (Nat.zero_le _))
  exists_live h := by cases h

theorem groupsOf?_eq {groups : List GroupId} {inputs : List Expr}
    (h : List.Forall₂ (fun g t => m.groupOf? t = some g) groups inputs) : m.groupsOf? inputs = some groups := by
  induction h with
  | nil => rfl
  | cons hg _ ih =>
    rw [groupsOf?, hg, ih]
    rfl

namespace Lists

/-- An operator over the groups of listed trees is recorded for the tree over these. -/
theorem listed_of_live (h : Lists m trees) {id : ExprId} {e : MemoExpr} (he : m.Live id e) {inputs : List Expr}
    (hinputs : List.Forall₂ (Listed trees) e.inputs inputs) : Listed trees e.group (.node e.op inputs) := by
  have hlt : id.index < trees.length := h.exprs_length ▸ lt_of_expr? he.1
  have hid : Listed trees ⟨id.index⟩ trees[id.index] := List.getElem?_eq_getElem hlt
  obtain ⟨f, others, hf, hgroup, htree, hothers⟩ := h.exists_live hid
  obtain rfl := he.unique hf
  have heq : others = inputs := List.right_unique_forall₂' (listed_rightUnique trees) hothers hinputs
  rw [hgroup, ← heq, ← htree]
  exact hid

/-- A listed tree is known to the index under its operator and the groups of its inputs. -/
theorem index_of_listed (h : Lists m trees) (c : m.Coherent) {g : GroupId} {op : Operator} {inputs : List Expr}
    {groups : List GroupId} (ht : Listed trees g (.node op inputs))
    (hgroups : List.Forall₂ (Listed trees) groups inputs) :
    ∃ id e, m.index.get? ⟨op, groups⟩ = some id ∧ m.Live id e ∧ e.group = g := by
  obtain ⟨e, others, he, hgroup, htree, hothers⟩ := h.exists_live ht
  obtain ⟨rfl, rfl⟩ := Expr.node.inj htree
  have heq : e.inputs = groups := List.left_unique_forall₂' (listed_leftUnique h.nodup) hothers hgroups
  exact ⟨⟨g.index⟩, e, (c.index_iff _ _).2 ⟨e, he, heq ▸ rfl⟩, he, hgroup⟩

/-- With a tree its inputs are listed, and theirs. -/
theorem mem_of_mem_subtrees (h : Lists m trees) {x t : Expr} (hx : x ∈ t.subtrees) : t ∈ trees → x ∈ trees := by
  induction t using Expr.induction with
  | group g => exact fun ht => List.mem_singleton.1 hx ▸ ht
  | node op inputs ih =>
    intro ht
    rcases (Expr.mem_subtrees_node op inputs).1 hx with rfl | ⟨i, hi, hxi⟩
    · exact ht
    · obtain ⟨g, hg⟩ := exists_listed_iff.2 ht
      obtain ⟨e, others, -, -, htree, hothers⟩ := h.exists_live hg
      obtain ⟨-, rfl⟩ := Expr.node.inj htree
      obtain ⟨k, -, hk⟩ := exists_of_mem_right hothers hi
      exact ih i hi hxi (exists_listed_iff.1 ⟨k, hk⟩)

/-- A listed tree is found in its group. -/
theorem groupOf?_eq (h : Lists m trees) (c : m.Coherent) {t : Expr} {g : GroupId} (ht : Listed trees g t) :
    m.groupOf? t = some g := by
  induction t using Expr.induction generalizing g with
  | group k =>
    obtain ⟨e, inputs, -, -, htree, -⟩ := h.exists_live ht
    cases htree
  | node op inputs ih =>
    obtain ⟨e, others, -, -, htree, hothers⟩ := h.exists_live ht
    obtain ⟨-, rfl⟩ := Expr.node.inj htree
    have hgroups : m.groupsOf? inputs = some e.inputs := groupsOf?_eq <| by
      rw [List.forall₂_iff_get] at hothers ⊢
      exact ⟨hothers.1, fun i hi hj => ih _ (List.get_mem ..) (hothers.2 i hi hj)⟩
    obtain ⟨id, f, hindex, hf, hgroup⟩ := h.index_of_listed c ht hothers
    rw [groupOf?, hgroups, Option.bind_eq_bind, Option.bind_some, hindex, Option.bind_eq_bind, Option.bind_some,
      hf.1, Option.map_some, hgroup, h.find_eq]

theorem groupCount_eq (h : Lists m trees) (c : m.Coherent) : m.groupCount = trees.length := by
  have hroots : m.links.roots = List.range m.links.size := List.filter_eq_self.2 fun i _ =>
    (m.links.isRoot_iff i).2 (congrArg GroupId.index (h.find_eq ⟨i⟩))
  rw [groupCount, hroots, List.length_range, c.links_size, h.groups_length]

/-- A tree that is not listed yet gets a group and an expression of its own. -/
theorem concat (h : Lists m trees) (c : m.Coherent) {op : Operator} {inputs : List Expr} {groups : List GroupId}
    (hgroups : List.Forall₂ (Listed trees) groups inputs) (hnew : m.index.get? ⟨op, groups⟩ = none)
    (logical : LogicalProperties) (statistics : σ) :
    Lists ((m.addGroup logical statistics).2.addExpr (m.addGroup logical statistics).1 ⟨op, groups⟩).2
      (trees ++ [.node op inputs]) where
  nodup := by
    refine List.nodup_append.2 ⟨h.nodup, List.nodup_singleton _, ?_⟩
    rintro t ht u hu rfl
    rw [List.mem_singleton.1 hu] at ht
    obtain ⟨g, hg⟩ := exists_listed_iff.2 ht
    obtain ⟨id, e, hindex, -⟩ := h.index_of_listed c hg hgroups
    cases hnew.symm.trans hindex
  exprs_length := by simp [addExpr, modifyGroup, addGroup, h.exprs_length]
  groups_length := by simp [addExpr, modifyGroup, addGroup, h.groups_length]
  find_eq g := (find_addGroup m logical statistics g).trans (h.find_eq g)
  exists_live := by
    intro g t ht
    rcases getElem?_concat_cases ht with ⟨-, ht⟩ | ⟨hg, rfl⟩
    · obtain ⟨e, others, he, hgroup, htree, hothers⟩ := h.exists_live ht
      exact ⟨e, others, (live_addExpr_iff _ _ _ _ _).2 (.inr he), hgroup, htree,
        hothers.imp fun _ _ hk => hk.append _⟩
    · refine ⟨newExpr (m.addGroup logical statistics).1 ⟨op, groups⟩, inputs, ?_, ?_, rfl,
        hgroups.imp fun _ _ hk => hk.append _⟩
      · exact (live_addExpr_iff _ _ _ _ _).2 (.inl ⟨congrArg ExprId.mk (hg.trans h.exprs_length.symm), rfl⟩)
      · exact congrArg GroupId.mk (h.groups_length.trans hg.symm)

end Lists

end

section Copying

variable {m : Memo σ κ} {s : Insertion σ κ} {trees : List Expr}

/-- What a step of copying has listed: the trees there were, and the subtrees of others that were not on the list. -/
structure Adds (s : Insertion σ κ) (trees : List Expr) (subtrees : List Expr) (more : List Expr) : Prop where
  lists : Lists s.memo (trees ++ more)
  subset : more ⊆ subtrees

theorem Lists.yields_place (h : Lists s.memo trees) (hcopying : Copying m s) (source : PropertySource σ)
    {op : Operator} {inputs : List Expr} {groups : List GroupId}
    (hgroups : List.Forall₂ (Listed trees) groups inputs) :
    Yields (place source none ⟨op, groups⟩ : InsertM σ κ Placed) s
      (fun placed u => ∃ more, Adds u trees [.node op inputs] more ∧
        Listed (trees ++ more) placed.group (.node op inputs)) (fun _ _ => True) := by
  have c := hcopying.wellFormed.coherent
  unfold place
  refine .bind_get ?_
  dsimp only
  split
  · rename_i known hknown
    obtain ⟨x, hx, hkey⟩ := (c.index_iff _ known).1 hknown
    obtain ⟨rfl, rfl⟩ := ExprKey.mk.inj hkey
    refine .bind_lift (fun e he => ?_) (fun _ _ => trivial)
    obtain rfl : e = x := Option.some.inj ((expr_ok he).symm.trans hx.1)
    refine .of_pure ⟨[], ⟨by rwa [List.append_nil], List.nil_subset _⟩, ?_⟩
    rw [List.append_nil, h.find_eq]
    exact h.listed_of_live hx hgroups
  · rename_i hnew
    refine .bind_lift (fun _ _ => ?_) (fun _ _ => trivial)
    refine .bind ((hcopying.yields_chooseGroup source m.target_none _).mono (fun _ _ => id) fun _ _ _ => trivial) ?_
    rintro g u (⟨-, -, htarget⟩ | ⟨logical, statistics, -, rfl, rfl⟩)
    · cases htarget
    · refine .of_modifyGet ⟨[.node op inputs], ⟨h.concat c hgroups hnew logical statistics, fun _ => id⟩, ?_⟩
      rw [show (s.memo.addGroup logical statistics).1 = ⟨trees.length⟩ from congrArg GroupId.mk h.groups_length]
      exact listed_concat trees _

theorem Lists.yields_registerProducer (h : Lists s.memo trees) (cte : Option CteId) (g : GroupId) :
    Yields (registerProducer cte g : InsertM σ κ Unit) s (fun _ u => Lists u.memo trees) (fun _ _ => False) := by
  cases cte with
  | none => exact .of_pure h
  | some cte =>
    unfold registerProducer
    refine .of_modify ?_
    split
    · exact h
    · exact { h with }

mutual

/-- To copy a tree lists those of its subtrees that are new. The induction is on the tree. -/
theorem Lists.yields_copyIn (source : PropertySource σ) (depth : Nat) : ∀ (e : Expr) {s : Insertion σ κ}
    {trees : List Expr}, e.Closed → Copying m s → Lists s.memo trees →
      Yields (copyIn source none depth e : InsertM σ κ Placed) s
        (fun placed u => ∃ more, Adds u trees e.subtrees more ∧ Listed (trees ++ more) placed.group e)
        (fun _ _ => True)
  | .group g, s, trees, hclosed, _, _ => (hclosed g (Expr.mem_subtrees_self _)).elim
  | .node (.physical op) inputs, s, trees, _, _, _ => by
    unfold copyIn
    refine .bind_lift (fun _ _ => ?_) (fun _ _ => trivial)
    refine .bind_lift (fun _ _ => ?_) (fun _ _ => trivial)
    exact .bind_get (.bind_lift (fun _ hgroups => by cases hgroups) (fun _ _ => trivial))
  | .node (.logical op) inputs, s, trees, hclosed, hcopying, h => by
    unfold copyIn
    refine .bind_lift (fun _ _ => ?_) (fun _ _ => trivial)
    refine .bind_lift (fun _ _ => ?_) (fun _ _ => trivial)
    refine .bind ((Lists.yields_copyInputs source (depth + 1) (producedCte? op) inputs
      (fun _ hi => hclosed.of_mem hi) hcopying h).and
      (Copying.yields_copyInputs source (depth + 1) (producedCte? op) inputs hcopying)) ?_
    rintro groups u ⟨⟨first, hfirst, hgroups⟩, hu, -⟩
    refine (hfirst.lists.yields_place hu.copying source hgroups).mono ?_ fun _ _ _ => trivial
    rintro placed v ⟨last, hlast, hplaced⟩
    refine ⟨first ++ last, ⟨?_, List.append_subset.2 ⟨fun x hx => ?_, fun x hx => ?_⟩⟩, ?_⟩
    · exact List.append_assoc .. ▸ hlast.lists
    · exact List.mem_cons_of_mem _ (hfirst.subset hx)
    · exact List.mem_singleton.1 (hlast.subset hx) ▸ Expr.mem_subtrees_self _
    · exact List.append_assoc .. ▸ hplaced

theorem Lists.yields_copyInputs (source : PropertySource σ) (depth : Nat) (cte : Option CteId) :
    ∀ (es : List Expr) {s : Insertion σ κ} {trees : List Expr}, (∀ e ∈ es, e.Closed) → Copying m s →
      Lists s.memo trees → Yields (copyInputs source depth cte es : InsertM σ κ (List GroupId)) s
        (fun groups u => ∃ more, Adds u trees (Expr.subtreesAll es) more ∧
          List.Forall₂ (Listed (trees ++ more)) groups es)
        (fun _ _ => True)
  | [], s, trees, _, _, h => by
    unfold copyInputs
    exact .of_pure ⟨[], ⟨by rwa [List.append_nil], List.nil_subset _⟩, .nil⟩
  | e :: es, s, trees, hclosed, hcopying, h => by
    obtain ⟨he, hes⟩ := List.forall_mem_cons.1 hclosed
    unfold copyInputs
    refine .bind ((Lists.yields_copyIn source depth e he hcopying h).and
      (Copying.yields_copyIn source m.target_none depth e hcopying)) ?_
    rintro placed u ⟨⟨first, hfirst, hplaced⟩, hu, hsurvives⟩
    refine .bind (((hfirst.lists.yields_registerProducer cte placed.group).mono (fun _ _ => id) fun _ _ hf =>
      hf.elim).and (hu.copying.yields_registerProducer cte hsurvives)) ?_
    rintro _ v ⟨hregister, hv⟩
    refine .bind (Lists.yields_copyInputs source depth none es hes hv.copying hregister) ?_
    rintro groups w ⟨rest, hrest, hgroups⟩
    refine .of_pure ⟨first ++ rest, ⟨?_, ?_⟩, ?_⟩
    · exact List.append_assoc .. ▸ hrest.lists
    · exact List.append_subset.2 ⟨fun x hx => List.mem_append_left _ (hfirst.subset hx),
        fun x hx => List.mem_append_right _ (hrest.subset hx)⟩
    · rw [← List.append_assoc]
      exact .cons (hplaced.append rest) hgroups

end

end Copying

section

variable [LT κ] [DecidableLT κ] {m n : Memo σ κ} {trees : List Expr}

/-- Inserts trees one after another and answers their groups, up to the first that fails. -/
def insertEach : List (PropertySource σ × Expr) → Memo σ κ → Except PlanError (List GroupId) × Memo σ κ
  | [], m => (.ok [], m)
  | (source, e) :: calls, m =>
    match m.insert source e with
    | (.error err, m) => (.error err, m)
    | (.ok g, m) =>
      let (groups, m) := insertEach calls m
      (groups.map (fun groups => g :: groups), m)

/-- An insertion lists the subtrees that are new. -/
theorem Lists.of_insert (h : Lists m trees) (w : m.WellFormed) {source : PropertySource σ} {e : Expr}
    (hclosed : e.Closed) {g : GroupId} (hinsert : m.insert source e = (.ok g, n)) :
    n.WellFormed ∧ ∃ more, more ⊆ e.subtrees ∧ Lists n (trees ++ more) ∧ Listed (trees ++ more) g e := by
  have hcopy := Lists.yields_copyIn source 0 e hclosed (copying_start w) h
  unfold Memo.insert at hinsert
  rcases insertAt_cases source e w m.target_none with ⟨err, heq⟩ | ⟨found, s, after, hrun, heq, hinserted⟩
  · rw [heq] at hinsert
    cases hinsert
  · -- no merge is asked for, so the memo is the one the tree was copied into
    obtain ⟨more, hmore, hlisted⟩ := hcopy.of_ok hrun
    obtain rfl : after = s.memo :=
      congrArg Prod.snd (heq.symm.trans (insertAt_of_copyIn source e hrun hinserted.merges_eq))
    rw [heq] at hinsert
    cases hinsert
    refine ⟨hinserted.wellFormed, more, hmore.subset, hmore.lists, ?_⟩
    rw [hmore.lists.find_eq]
    exact hlisted

theorem Lists.of_insertEach (h : Lists m trees) (w : m.WellFormed) {calls : List (PropertySource σ × Expr)}
    (hclosed : ∀ c ∈ calls, c.2.Closed) {groups : List GroupId} (hinsert : m.insertEach calls = (.ok groups, n)) :
    n.Coherent ∧ ∃ more, more ⊆ Expr.subtreesAll (calls.map Prod.snd) ∧ Lists n (trees ++ more) ∧
      List.Forall₂ (Listed (trees ++ more)) groups (calls.map Prod.snd) := by
  induction calls generalizing m trees groups with
  | nil =>
    cases hinsert
    exact ⟨w.coherent, [], List.nil_subset _, by rwa [List.append_nil], .nil⟩
  | cons call calls ih =>
    obtain ⟨source, e⟩ := call
    obtain ⟨he, hcalls⟩ := List.forall_mem_cons.1 hclosed
    rw [insertEach] at hinsert
    split at hinsert
    · cases hinsert
    · rename_i g k hg
      obtain ⟨wk, first, hfirst, hk, hlisted⟩ := h.of_insert w he hg
      cases hrest : k.insertEach calls with
      | mk r after =>
        rw [hrest] at hinsert
        cases r with
        | error err => cases hinsert
        | ok rest =>
          cases hinsert
          obtain ⟨hn, last, hlast, hlists, hgroups⟩ := ih hk wk hcalls hrest
          refine ⟨hn, first ++ last, ?_, ?_, ?_⟩
          · exact List.append_subset.2 ⟨fun x hx => List.mem_append_left _ (hfirst hx),
              fun x hx => List.mem_append_right _ (hlast hx)⟩
          · exact List.append_assoc .. ▸ hlists
          · rw [← List.append_assoc]
            exact .cons (hlisted.append last) hgroups

/-- First rows of no constants, which are inserted twice and read by a common table expression. -/
def sharedCalls : List (PropertySource Unit × Expr) :=
  [firstOf (constants 0), constants 1, firstOf (constants 0),
    .ofLogical (.cteAnchor 1) [constants 1, firstOf (constants 0)]].map (fun e => (rowSource true, e))

/-- Trees without groups that are inserted into an empty memo, whatever properties are said to be derived of
them, are found in the groups answered. Of their subtrees just those that are equal are found in the same
group, and there are as many groups, and as many expressions, as there are different subtrees. -/
theorem insertEach_shares (verify : Bool) (limit : Option Nat) (calls : List (PropertySource σ × Expr))
    (hclosed : ∀ c ∈ calls, c.2.Closed) (groups : List GroupId)
    (hinsert : (empty verify limit : Memo σ κ).insertEach calls = (.ok groups, m)) :
    calls.map (fun c => m.groupOf? c.2) = groups.map some ∧
    (∀ t ∈ Expr.subtreesAll (calls.map Prod.snd), ∃ g, m.groupOf? t = some g ∧
      ∀ u ∈ Expr.subtreesAll (calls.map Prod.snd), m.groupOf? u = some g ↔ u = t) ∧
    m.groupCount = {t | t ∈ Expr.subtreesAll (calls.map Prod.snd)}.ncard ∧
    m.exprCount = {t | t ∈ Expr.subtreesAll (calls.map Prod.snd)}.ncard := by
  obtain ⟨c, trees, hsubset, h, hgroups⟩ :=
    (lists_empty verify limit).of_insertEach (wellFormed_empty verify limit) hclosed hinsert
  rw [List.nil_append] at h hgroups
  have hlisted : ∀ t, t ∈ Expr.subtreesAll (calls.map Prod.snd) ↔ t ∈ trees := by
    refine fun t => ⟨fun ht => ?_, fun ht => hsubset ht⟩
    obtain ⟨e, he, hte⟩ := (Expr.mem_subtreesAll _).1 ht
    obtain ⟨g, -, hg⟩ := exists_of_mem_right hgroups he
    exact h.mem_of_mem_subtrees hte (exists_listed_iff.1 ⟨g, hg⟩)
  have hcount : {t | t ∈ Expr.subtreesAll (calls.map Prod.snd)}.ncard = trees.length := by
    classical
    have hset : {t | t ∈ Expr.subtreesAll (calls.map Prod.snd)} = {t | t ∈ trees} := Set.ext hlisted
    rw [hset, ← List.coe_toFinset, Set.ncard_coe_finset, List.toFinset_card_of_nodup h.nodup]
  refine ⟨?_, fun t ht => ?_, ?_, ?_⟩
  · have hfound := (hgroups.imp fun _ _ hg => h.groupOf?_eq c hg).flip
    rw [List.forall₂_map_left_iff] at hfound
    rw [← List.forall₂_eq_eq_eq, List.forall₂_map_left_iff, List.forall₂_map_right_iff]
    exact hfound
  · obtain ⟨g, hg⟩ := exists_listed_iff.2 ((hlisted t).1 ht)
    refine ⟨g, h.groupOf?_eq c hg, fun u hu => ⟨fun hug => ?_, fun hut => hut ▸ h.groupOf?_eq c hg⟩⟩
    obtain ⟨k, hk⟩ := exists_listed_iff.2 ((hlisted u).1 hu)
    obtain rfl := Option.some.inj ((h.groupOf?_eq c hk).symm.trans hug)
    exact listed_rightUnique trees hk hg
  · rw [hcount, h.groupCount_eq c]
  · rw [hcount, exprCount, h.exprs_length]

/-- Nine subtrees, four of them different. -/
theorem insertEach_shares_sharedCalls : ∃ m : Memo Unit Nat,
    (empty false none).insertEach sharedCalls = (.ok [⟨1⟩, ⟨2⟩, ⟨1⟩, ⟨3⟩], m) ∧
    m.groupOf? (constants 0) = some ⟨0⟩ ∧ m.groupOf? (firstOf (constants 0)) ≠ m.groupOf? (constants 0) ∧
    (Expr.subtreesAll (sharedCalls.map Prod.snd)).length = 9 ∧
    {t | t ∈ Expr.subtreesAll (sharedCalls.map Prod.snd)}.ncard = 4 := by
  have hrun :
      ((empty false none : Memo Unit Nat).insertEach sharedCalls).1.toOption = some [⟨1⟩, ⟨2⟩, ⟨1⟩, ⟨3⟩] ∧
      ((empty false none : Memo Unit Nat).insertEach sharedCalls).2.groupOf? (constants 0) = some ⟨0⟩ ∧
      ((empty false none : Memo Unit Nat).insertEach sharedCalls).2.exprCount = 4 := by
    decide +kernel
  have hclosed : ∀ c ∈ sharedCalls, c.2.Closed := by
    simp [sharedCalls, Expr.Closed, firstOf, constants, Expr.ofLogical, Expr.subtrees, Expr.subtreesAll]
  cases h : (empty false none : Memo Unit Nat).insertEach sharedCalls with
  | mk r m =>
    rw [h] at hrun
    obtain ⟨hgroups, hzero, hcount⟩ := hrun
    cases r with
    | error err => cases hgroups
    | ok groups =>
      obtain rfl := Option.some.inj hgroups
      obtain ⟨-, hshares, -, hexprs⟩ := insertEach_shares false none sharedCalls hclosed _ h
      have hmem : constants 0 ∈ Expr.subtreesAll (sharedCalls.map Prod.snd) ∧
          firstOf (constants 0) ∈ Expr.subtreesAll (sharedCalls.map Prod.snd) := by
        simp [sharedCalls, firstOf, constants, Expr.subtrees, Expr.subtreesAll]
      refine ⟨m, rfl, hzero, fun heq => ?_, rfl, hexprs.symm.trans hcount⟩
      obtain ⟨g, hg, hiff⟩ := hshares (constants 0) hmem.1
      cases (hiff (firstOf (constants 0)) hmem.2).1 (heq.trans hg)

end

end Cascade.Memo
