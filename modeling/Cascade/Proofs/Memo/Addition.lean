import Cascade.Proofs.Memo.Extension

/-!
Additions to a memo: a new group, and a new expression of a surviving group. A new group is empty, so
the memo is well-formed again only once its first expression is added.
-/

namespace Cascade.Memo

variable {σ κ : Type}

section Group

variable (m : Memo σ κ) (logical : LogicalProperties) (statistics : σ)

theorem find_addGroup (g : GroupId) : (m.addGroup logical statistics).2.find g = m.find g :=
  congrArg GroupId.mk (m.links.find_add g.index)

theorem stores_addGroup {g : GroupId} {x : Group σ} (h : (m.addGroup logical statistics).2.Stores g x) :
    m.Stores g x ∨ g = (m.addGroup logical statistics).1 ∧ x = ⟨[], logical, statistics, false, false, [], ∅⟩ := by
  simp only [Stores, addGroup, List.getElem?_append] at h
  split at h
  · exact .inl h
  · right
    have hi := (List.getElem?_eq_some_iff.1 h).1
    simp only [List.length_singleton] at hi
    have he : g.index = m.groups.length := by omega
    rw [he, Nat.sub_self, List.getElem?_cons_zero, Option.some.injEq] at h
    exact ⟨congrArg GroupId.mk he, h.symm⟩

theorem knows_addGroup {g : GroupId} (h : m.Knows g) : (m.addGroup logical statistics).2.Knows g := by
  simp only [Knows, addGroup, List.length_append, List.length_singleton] at h ⊢
  omega

theorem survives_addGroup {g : GroupId} (h : m.Survives g) : (m.addGroup logical statistics).2.Survives g :=
  ⟨knows_addGroup m logical statistics h.1, (find_addGroup m logical statistics g).trans h.2⟩

theorem survives_new {m : Memo σ κ} (c : m.Coherent) :
    (m.addGroup logical statistics).2.Survives (m.addGroup logical statistics).1 := by
  constructor
  · simp [Knows, addGroup]
  · rw [find_addGroup]
    exact congrArg GroupId.mk (m.links.find_of_size_le (Nat.le_of_eq c.links_size))

theorem inherits_addGroup : Inherits m (m.addGroup logical statistics).2 where
  find hgh := by rw [find_addGroup, find_addGroup, hgh]
  groups := by
    intro g x hx
    refine ⟨x, ?_, rfl⟩
    unfold group?
    rw [find_addGroup]
    exact (List.getElem?_append_left (knows_of_content hx)).trans hx
  exprs he := ⟨_, he, rfl, rfl, rfl⟩
  slots_le := Nat.le_refl _
  contexts hc _ := hc
  winners := by
    intro g y hy w hw
    rcases stores_addGroup m logical statistics hy with hx | ⟨-, rfl⟩
    · exact ⟨g, y, hx, hw, rfl⟩
    · cases hw
  length_eq := rfl

theorem coherent_addGroup {m : Memo σ κ} (c : m.Coherent) : (m.addGroup logical statistics).2.Coherent where
  links_size := by
    simp [addGroup, c.links_size]
  inputs_survive he g hg :=
    (c.inputs_survive he g hg).imp_left (survives_addGroup m logical statistics)
  index_iff := c.index_iff
  members_iff := by
    intro g x hx id
    rcases stores_addGroup m logical statistics hx with hx | ⟨rfl, rfl⟩
    · simp only [find_addGroup]
      exact c.members_iff hx id
    · refine ⟨fun h => absurd h List.not_mem_nil, ?_⟩
      rintro ⟨e, he, hg⟩
      rw [find_addGroup] at hg
      have hk : (m.find e.group).index < m.groups.length := knows_find (c.group_known he.1)
      rw [hg] at hk
      exact absurd hk (Nat.lt_irrefl _)
  members_nodup := by
    intro g x hx
    rcases stores_addGroup m logical statistics hx with hx | ⟨-, rfl⟩
    · exact c.members_nodup hx
    · exact List.nodup_nil
  group_known he := knows_addGroup m logical statistics (c.group_known he)
  winners_nil := by
    intro g x hx hg
    rw [find_addGroup] at hg
    rcases stores_addGroup m logical statistics hx with hx | ⟨-, rfl⟩
    · exact c.winners_nil hx hg
    · rfl
  producers_survive h := survives_addGroup m logical statistics (c.producers_survive h)
  index_rows := c.index_rows
  arity := c.arity

end Group

section Expression

variable (m : Memo σ κ) (g : GroupId) (key : ExprKey)

/-- The expression that is added under a key. -/
def newExpr : MemoExpr := ⟨g, key.op, key.inputs, ∅, false, false, [], false⟩

theorem expr?_addExpr (id : ExprId) :
    (m.addExpr g key).2.expr? id = if id = (m.addExpr g key).1 then some (newExpr g key) else m.expr? id := by
  have hexprs : (m.addExpr g key).2.exprs = m.exprs ++ [newExpr g key] := rfl
  have hnew : id = (m.addExpr g key).1 ↔ id.index = m.exprs.length := by
    cases id
    simp [addExpr]
  rw [expr?, hexprs, List.getElem?_append]
  by_cases he : id.index = m.exprs.length
  · rw [if_pos (hnew.2 he), if_neg (by omega), he, Nat.sub_self]
    rfl
  · rw [if_neg (fun h => he (hnew.1 h))]
    split
    · rfl
    · rw [List.getElem?_eq_none (by simp only [List.length_singleton]; omega), expr?,
        List.getElem?_eq_none (by omega)]

theorem expr?_new : m.expr? (m.addExpr g key).1 = none := List.getElem?_eq_none (Nat.le_refl _)

theorem live_addExpr_iff (id : ExprId) (e : MemoExpr) : (m.addExpr g key).2.Live id e ↔
    (id = (m.addExpr g key).1 ∧ e = newExpr g key) ∨ m.Live id e := by
  unfold Live
  rw [expr?_addExpr]
  split
  · rename_i hid
    subst hid
    constructor
    · rintro ⟨he, -⟩
      exact .inl ⟨rfl, (Option.some.inj he).symm⟩
    · rintro (⟨-, rfl⟩ | ⟨he, -⟩)
      · exact ⟨rfl, rfl⟩
      · rw [expr?_new] at he
        cases he
  · rename_i hid
    simp [hid]

theorem stores_addExpr {k : GroupId} {x : Group σ} (h : (m.addExpr g key).2.Stores k x) : ∃ y, m.Stores k y ∧
    x = if g = k then { y with members := y.members ++ [(m.addExpr g key).1] } else y := by
  simp only [Stores, addExpr, modifyGroup, List.getElem?_modify, Option.map_eq_map] at h
  obtain ⟨y, hy, hxy⟩ := Option.map_eq_some_iff.1 h
  refine ⟨y, hy, ?_⟩
  have hiff : g.index = k.index ↔ g = k := by cases g; cases k; simp
  rw [← hxy]
  by_cases he : g = k
  · rw [if_pos (hiff.2 he), if_pos he]
    rfl
  · rw [if_neg (fun h => he (hiff.1 h)), if_neg he]

theorem expr?_addExpr_of_some {id : ExprId} {e : MemoExpr} (h : m.expr? id = some e) :
    (m.addExpr g key).2.expr? id = some e := by
  rw [expr?_addExpr, if_neg, h]
  rintro rfl
  cases (expr?_new m g key).symm.trans h

theorem inherits_addExpr : Inherits m (m.addExpr g key).2 where
  find h := h
  groups := by
    intro k x hx
    have hget : (m.addExpr g key).2.groups[(m.find k).index]? = _ :=
      (List.getElem?_modify ..).trans (congrArg _ hx)
    refine ⟨_, hget, ?_⟩
    split <;> rfl
  exprs he := ⟨_, expr?_addExpr_of_some m g key he, rfl, rfl, rfl⟩
  slots_le := Nat.le_refl _
  contexts hc _ := hc
  winners := by
    intro k y hy w hw
    obtain ⟨x, hx, rfl⟩ := stores_addExpr m g key hy
    refine ⟨k, x, hx, ?_, rfl⟩
    split at hw <;> exact hw
  length_eq := rfl

theorem survives_addExpr_iff (k : GroupId) : (m.addExpr g key).2.Survives k ↔ m.Survives k := by
  simp only [Survives, Knows, addExpr, modifyGroup, List.length_modify]
  rfl

variable {m g key}

theorem coherent_addExpr (c : m.Coherent) (hg : m.Survives g) (hkey : m.index.get? key = none)
    (hinputs : ∀ i ∈ key.inputs, m.Survives i) (harity : ∀ n, key.op.arity = some n → key.inputs.length = n) :
    (m.addExpr g key).2.Coherent where
  links_size := by
    simp [addExpr, modifyGroup, c.links_size]
  inputs_survive := by
    intro id e he i hi
    rw [survives_addExpr_iff]
    rcases (live_addExpr_iff m g key id e).1 he with ⟨-, rfl⟩ | he
    · exact .inl (hinputs i hi)
    · exact c.inputs_survive he i hi
  index_iff := by
    intro k id
    have hset : (m.addExpr g key).2.index.get? k = if k = key then some (m.addExpr g key).1 else m.index.get? k :=
      Lookup.get?_set _ _ _ _
    have none_live : ∀ {id e}, m.Live id e → e.key ≠ key := fun he hk => by
      rw [(c.index_iff key _).2 ⟨_, he, hk⟩] at hkey
      cases hkey
    rw [hset]
    constructor
    · intro h
      split at h
      · rename_i hk
        exact ⟨newExpr g key, (live_addExpr_iff m g key id _).2 (.inl ⟨(Option.some.inj h).symm, rfl⟩), hk.symm⟩
      · obtain ⟨e, he, hk⟩ := (c.index_iff k id).1 h
        exact ⟨e, (live_addExpr_iff m g key id e).2 (.inr he), hk⟩
    · rintro ⟨e, he, rfl⟩
      rcases (live_addExpr_iff m g key id e).1 he with ⟨rfl, rfl⟩ | he
      · exact if_pos rfl
      · rw [if_neg (none_live he)]
        exact (c.index_iff e.key id).2 ⟨e, he, rfl⟩
  members_iff := by
    intro k x hx id
    obtain ⟨y, hy, rfl⟩ := stores_addExpr m g key hx
    have hfind : ∀ h, (m.addExpr g key).2.find h = m.find h := fun _ => rfl
    have old := c.members_iff hy id
    simp only [live_addExpr_iff, hfind, or_and_right, exists_or]
    by_cases hk : g = k
    · subst hk
      rw [if_pos rfl, List.mem_append, List.mem_singleton, old, or_comm]
      refine or_congr_left ⟨fun h => ⟨newExpr g key, ⟨h, rfl⟩, hg.2⟩, ?_⟩
      rintro ⟨_, ⟨h, _⟩, _⟩
      exact h
    · rw [if_neg hk, old]
      refine ⟨.inr, fun h => h.resolve_left ?_⟩
      rintro ⟨e, ⟨-, rfl⟩, he⟩
      exact hk (hg.2.symm.trans he)
  members_nodup := by
    intro k x hx
    obtain ⟨y, hy, rfl⟩ := stores_addExpr m g key hx
    split
    · refine List.nodup_append.2 ⟨c.members_nodup hy, (List.nodup_cons.2 ⟨List.not_mem_nil, List.nodup_nil⟩), ?_⟩
      rintro id hmem j hj rfl
      rw [List.mem_singleton.1 hj] at hmem
      obtain ⟨e, he, -⟩ := (c.members_iff hy _).1 hmem
      rw [Live, expr?_new] at he
      cases he.1
    · exact c.members_nodup hy
  group_known := by
    intro id e he
    have hk : m.Knows e.group := by
      rw [expr?_addExpr] at he
      split at he
      · rw [← Option.some.inj he]
        exact hg.1
      · exact c.group_known he
    simpa [Knows, addExpr, modifyGroup] using hk
  winners_nil := by
    intro k x hx hk
    obtain ⟨y, hy, rfl⟩ := stores_addExpr m g key hx
    have := c.winners_nil hy hk
    split <;> exact this
  producers_survive h := (survives_addExpr_iff m g key _).2 (c.producers_survive h)
  index_rows := by
    intro r hr
    have hlen : (m.addExpr g key).2.exprs.length = m.exprs.length + 1 := by simp [addExpr, modifyGroup]
    rw [hlen]
    rcases Lookup.mem_rows_set hr with rfl | hr
    · exact Nat.lt_succ_self _
    · exact Nat.lt_succ_of_lt (c.index_rows r hr)
  arity := by
    intro id e he
    rw [expr?_addExpr] at he
    split at he
    · rw [← Option.some.inj he]
      exact harity
    · exact c.arity he

theorem nonempty_addExpr (hnonempty : ∀ {k x}, m.Stores k x → m.find k = k → k ≠ g → x.members ≠ [])
    {k : GroupId} {x : Group σ} (hx : (m.addExpr g key).2.Stores k x) (hk : m.find k = k) : x.members ≠ [] := by
  obtain ⟨y, hy, rfl⟩ := stores_addExpr m g key hx
  split
  · simp
  · rename_i hne
    exact hnonempty hy hk (Ne.symm hne)

end Expression

end Cascade.Memo
