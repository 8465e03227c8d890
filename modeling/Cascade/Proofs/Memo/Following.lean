import Cascade.Proofs.Memo.Congruence

/-!
The merges that follow from a set of links. Each of them is of two expressions that get the same key
under the links, and if the links already join all of them then expressions with the same key are in one
class: no merge that follows is missed.
-/

namespace Cascade.Memo

variable {σ κ : Type}

/-- The class of the expression that has a key once groups are linked: of an unaffected one, or of one
that was seen. -/
def classUnder (m : Memo σ κ) (links : Links) (seen : Lookup ExprKey Nat) (key : ExprKey) : Option Nat :=
  match m.index.get? key with
  | some other => (m.expr? other).map (fun o => links.find o.group.index)
  | none => seen.get? key

variable {m : Memo σ κ} {links : Links}

theorem isAffected_eq_false_iff (c : m.Coherent) {id : ExprId} {e : MemoExpr} (he : m.Live id e) :
    m.isAffected links e = false ↔ ∀ g ∈ e.inputs, links.find g.index = g.index := by
  unfold isAffected
  simp only [List.any_eq_false, Bool.not_eq_true', Bool.not_eq_false, Links.isRoot_iff]
  refine forall₂_congr fun g hg => ?_
  have hg : m.links.find g.index = g.index := congrArg GroupId.index (c.input_survives he hg).2
  rw [hg]

theorem keyUnder_of_unaffected (c : m.Coherent) {id : ExprId} {e : MemoExpr} (he : m.Live id e)
    (h : m.isAffected links e = false) : keyUnder links e = e.key := by
  have hroots := (isAffected_eq_false_iff c he).1 h
  have hinputs : e.inputs.map (fun g => (⟨links.find g.index⟩ : GroupId)) = e.inputs :=
    (List.map_congr_left fun g hg => congrArg GroupId.mk (hroots g hg)).trans (List.map_id _)
  rw [keyUnder, hinputs, MemoExpr.key]

/-- An expression that has a key under the links before they are made is unaffected. -/
theorem unaffected_of_key (c : m.Coherent) {id : ExprId} {o : MemoExpr} (ho : m.Live id o) {e : MemoExpr}
    (hk : o.key = keyUnder links e) : m.isAffected links o = false := by
  refine (isAffected_eq_false_iff c ho).2 fun g hg => ?_
  have hinputs : o.inputs = e.inputs.map (fun g => (⟨links.find g.index⟩ : GroupId)) := congrArg ExprKey.inputs hk
  rw [hinputs] at hg
  obtain ⟨i, -, rfl⟩ := List.mem_map.1 hg
  exact links.find_find i.index

/-- For an affected expression it does not matter where it stands itself. -/
theorem duplicateUnder_eq (c : m.Coherent) {id : ExprId} {e : MemoExpr} (he : m.Live id e)
    (haffected : m.isAffected links e = true) (seen : Lookup ExprKey Nat) :
    m.duplicateUnder links seen e id.index = m.classUnder links seen (keyUnder links e) := by
  unfold duplicateUnder classUnder
  simp only
  cases hother : m.index.get? (keyUnder links e) with
  | none => rfl
  | some other =>
    obtain ⟨o, ho, hk⟩ := (c.index_iff _ other).1 hother
    refine if_neg fun hplace => ?_
    have hsame : other = id := by
      cases other
      cases id
      exact congrArg ExprId.mk hplace
    have hunaffected := unaffected_of_key c ho hk
    rw [hsame] at ho
    rw [ho.unique he, haffected] at hunaffected
    cases hunaffected

section Class

variable {seen : Lookup ExprKey Nat} {key : ExprKey} {group : Nat}

/-- A class that is noted again does not change. -/
theorem classUnder_set (h : ∀ w, m.classUnder links seen key = some w → w = group) {k : ExprKey} {v : Nat}
    (hk : m.classUnder links seen k = some v) : m.classUnder links (seen.set key group) k = some v := by
  unfold classUnder at *
  split at hk
  · exact hk
  · by_cases he : k = key
    · subst he
      rw [Lookup.get?_set_self]
      simp_all
    · rw [Lookup.get?_set_of_ne _ _ he]
      exact hk

theorem classUnder_set_self (c : m.Coherent) (h : ∀ w, m.classUnder links seen key = some w → w = group) :
    m.classUnder links (seen.set key group) key = some group := by
  unfold classUnder at *
  split
  · rename_i other hother
    obtain ⟨o, ho, -⟩ := (c.index_iff _ other).1 hother
    rw [hother] at h
    simp only [ho.1, Option.map_some, Option.some.injEq, forall_eq'] at h ⊢
    exact h
  · exact Lookup.get?_set_self _ _ _

end Class

/-- Two live expressions that have the same key under the links. -/
def Duplicates (m : Memo σ κ) (links : Links) (x y : MemoExpr) : Prop :=
  (∃ i, m.Live i x) ∧ (∃ j, m.Live j y) ∧ keyUnder links x = keyUnder links y

/-- What holds after some expressions were looked at. -/
structure Followed (m : Memo σ κ) (links : Links) (done : List (MemoExpr × Nat))
    (acc : Lookup ExprKey Nat × List Merge) : Prop where
  seen : ∀ {k v}, acc.1.get? k = some v →
    ∃ x, (∃ i, m.Live i x) ∧ keyUnder links x = k ∧ links.find x.group.index = v
  merges : ∀ p ∈ acc.2, ∃ x y, m.Duplicates links x y ∧
    p = (⟨links.find x.group.index⟩, ⟨links.find y.group.index⟩)
  followed : ∀ x ∈ done, x.1.removed = false → m.isAffected links x.1 = true →
    ∃ v, m.classUnder links acc.1 (keyUnder links x.1) = some v ∧
      (v = links.find x.1.group.index ∨ (⟨links.find x.1.group.index⟩, ⟨v⟩) ∈ acc.2)

theorem classUnder_sound (c : m.Coherent) {done : List (MemoExpr × Nat)}
    {acc : Lookup ExprKey Nat × List Merge} (h : Followed m links done acc) {e : MemoExpr} {v : Nat}
    (hv : m.classUnder links acc.1 (keyUnder links e) = some v) :
    ∃ y, (∃ j, m.Live j y) ∧ keyUnder links y = keyUnder links e ∧ links.find y.group.index = v := by
  unfold classUnder at hv
  split at hv
  · rename_i other hother
    obtain ⟨o, ho, hk⟩ := (c.index_iff _ other).1 hother
    rw [ho.1, Option.map_some, Option.some.injEq] at hv
    exact ⟨o, ⟨other, ho⟩, (keyUnder_of_unaffected c ho (unaffected_of_key c ho hk)).trans hk, hv⟩
  · exact h.seen hv

theorem Followed.skip {done : List (MemoExpr × Nat)} {acc : Lookup ExprKey Nat × List Merge}
    (h : Followed m links done acc) {x : MemoExpr × Nat} (hx : x.1.removed = true ∨ m.isAffected links x.1 = false) :
    Followed m links (done ++ [x]) acc :=
  { h with
    followed := by
      intro y hy hlive haffected
      rcases List.mem_append.1 hy with hy | hy
      · exact h.followed y hy hlive haffected
      · rw [List.mem_singleton.1 hy] at hlive haffected
        rcases hx with hx | hx
        · rw [hx] at hlive
          cases hlive
        · rw [hx] at haffected
          cases haffected }

theorem Followed.note (c : m.Coherent) {done : List (MemoExpr × Nat)} {acc : Lookup ExprKey Nat × List Merge}
    (h : Followed m links done acc) {x : MemoExpr × Nat} (hx : ∃ i, m.Live i x.1)
    (hclass : ∀ w, m.classUnder links acc.1 (keyUnder links x.1) = some w → w = links.find x.1.group.index) :
    Followed m links (done ++ [x]) (acc.1.set (keyUnder links x.1) (links.find x.1.group.index), acc.2) where
  seen := by
    intro k v hk
    rw [Lookup.get?_set] at hk
    split at hk
    · rename_i he
      exact ⟨x.1, hx, he.symm, Option.some.inj hk⟩
    · exact h.seen hk
  merges := h.merges
  followed := by
    intro y hy hlive haffected
    rcases List.mem_append.1 hy with hy | hy
    · obtain ⟨v, hv, hcase⟩ := h.followed y hy hlive haffected
      exact ⟨v, classUnder_set hclass hv, hcase⟩
    · rw [List.mem_singleton.1 hy]
      exact ⟨_, classUnder_set_self c hclass, .inl rfl⟩

theorem Followed.ask (c : m.Coherent) {done : List (MemoExpr × Nat)} {acc : Lookup ExprKey Nat × List Merge}
    (h : Followed m links done acc) {x : MemoExpr × Nat} (hx : ∃ i, m.Live i x.1) {other : Nat}
    (hclass : m.classUnder links acc.1 (keyUnder links x.1) = some other) :
    Followed m links (done ++ [x]) (acc.1, acc.2 ++ [(⟨links.find x.1.group.index⟩, ⟨other⟩)]) where
  seen := h.seen
  merges := by
    intro p hp
    rcases List.mem_append.1 hp with hp | hp
    · exact h.merges p hp
    · obtain ⟨y, hy, hkey, rfl⟩ := classUnder_sound c h hclass
      exact ⟨x.1, y, ⟨hx, hy, hkey.symm⟩, List.mem_singleton.1 hp⟩
  followed := by
    intro y hy hlive haffected
    rcases List.mem_append.1 hy with hy | hy
    · obtain ⟨v, hv, hcase⟩ := h.followed y hy hlive haffected
      exact ⟨v, hv, hcase.imp_right (List.mem_append_left _)⟩
    · rw [List.mem_singleton.1 hy]
      exact ⟨other, hclass, .inr (List.mem_append_right _ (List.mem_singleton.2 rfl))⟩

theorem followed_step (c : m.Coherent) {done : List (MemoExpr × Nat)} {acc : Lookup ExprKey Nat × List Merge}
    (h : Followed m links done acc) {x : MemoExpr × Nat} (hx : m.expr? ⟨x.2⟩ = some x.1) :
    Followed m links (done ++ [x]) (m.followStep links acc x) := by
  unfold followStep
  simp only
  split
  · rename_i hskip
    refine h.skip ?_
    simpa using hskip
  · rename_i hskip
    simp only [Bool.or_eq_true, Bool.not_eq_true', not_or, Bool.not_eq_true, Bool.not_eq_false] at hskip
    obtain ⟨hlive, haffected⟩ := hskip
    have hx : m.Live ⟨x.2⟩ x.1 := ⟨hx, hlive⟩
    rw [show m.duplicateUnder links acc.1 x.1 x.2 = _ from duplicateUnder_eq c hx haffected acc.1]
    split
    · rename_i other hclass
      split
      · rename_i hsame
        exact h.note c ⟨_, hx⟩ fun w hw => (Option.some.inj (hw.symm.trans hclass)).trans hsame
      · exact h.ask c ⟨_, hx⟩ hclass
    · rename_i hnone
      exact h.note c ⟨_, hx⟩ fun w hw => by
        rw [hnone] at hw
        cases hw

theorem followed_foldl (c : m.Coherent) (rest : List (MemoExpr × Nat)) {done : List (MemoExpr × Nat)}
    {acc : Lookup ExprKey Nat × List Merge} (h : Followed m links done acc)
    (hrest : ∀ x ∈ rest, m.expr? ⟨x.2⟩ = some x.1) :
    Followed m links (done ++ rest) (rest.foldl (m.followStep links) acc) := by
  -- on the expressions that are still to be looked at
  induction rest generalizing done acc with
  | nil => rwa [List.append_nil]
  | cons x rest ih =>
    have hstep := followed_step c h (hrest x (List.mem_cons_self ..))
    have := ih hstep fun y hy => hrest y (List.mem_cons_of_mem _ hy)
    rwa [List.append_assoc] at this

theorem followed_all (c : m.Coherent) (links : Links) :
    Followed m links m.exprs.zipIdx (m.exprs.zipIdx.foldl (m.followStep links) (∅, [])) := by
  have start : Followed m links [] (∅, []) :=
    ⟨fun hk => (by cases hk), fun p hp => absurd hp List.not_mem_nil, fun x hx => absurd hx List.not_mem_nil⟩
  exact followed_foldl c m.exprs.zipIdx start fun x hx => List.mem_zipIdx_iff_getElem?.1 hx

/-- Merges that follow are of expressions that have become duplicates. -/
theorem followingMerges_sound (c : m.Coherent) {p : Merge} (hp : p ∈ m.followingMerges links) :
    ∃ x y, m.Duplicates links x y ∧ p = (⟨links.find x.group.index⟩, ⟨links.find y.group.index⟩) :=
  (followed_all c links).merges p hp

/-- If links join all the merges that follow from them, duplicates are in one class. -/
theorem followingMerges_complete (c : m.Coherent)
    (hclosed : ∀ p ∈ m.followingMerges links, links.find p.1.index = links.find p.2.index) {x y : MemoExpr}
    (h : m.Duplicates links x y) : links.find x.group.index = links.find y.group.index := by
  obtain ⟨⟨i, hx⟩, ⟨j, hy⟩, hkey⟩ := h
  have hfollowed := followed_all c links
  -- the class an affected expression is noted in is its own
  have noted : ∀ {k e}, m.Live k e → m.isAffected links e = true → m.classUnder links
      (m.exprs.zipIdx.foldl (m.followStep links) (∅, [])).1 (keyUnder links e) = some (links.find e.group.index) := by
    intro k e he haffected
    have hmem : (e, k.index) ∈ m.exprs.zipIdx := List.mem_zipIdx_iff_getElem?.2 he.1
    obtain ⟨v, hv, hcase⟩ := hfollowed.followed (e, k.index) hmem he.2 haffected
    rw [hv]
    rcases hcase with rfl | hcase
    · rfl
    · obtain ⟨o, -, -, rfl⟩ := classUnder_sound c hfollowed hv
      have := hclosed _ hcase
      rw [links.find_find, links.find_find] at this
      rw [this]
  -- the class of an unaffected one is found in the index
  have indexed : ∀ {k e} (seen : Lookup ExprKey Nat), m.Live k e → m.isAffected links e = false →
      m.classUnder links seen (keyUnder links e) = some (links.find e.group.index) := by
    intro k e seen he hunaffected
    have hget := (c.index_iff e.key k).2 ⟨e, he, rfl⟩
    rw [keyUnder_of_unaffected c he hunaffected, classUnder, hget]
    simp only [he.1, Option.map_some]
  have hclass : ∀ {k e}, m.Live k e → m.classUnder links (m.exprs.zipIdx.foldl (m.followStep links) (∅, [])).1
      (keyUnder links e) = some (links.find e.group.index) := by
    intro k e he
    cases haffected : m.isAffected links e with
    | true => exact noted he haffected
    | false => exact indexed _ he haffected
  exact Option.some.inj ((hclass hx).symm.trans (hkey ▸ hclass hy))

end Cascade.Memo
