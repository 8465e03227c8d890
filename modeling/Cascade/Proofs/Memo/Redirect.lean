import Cascade.Proofs.Memo.Congruence

/-!
Writing the inputs of an expression anew after groups were linked. An expression whose new key nobody
has is found under it from then on (`renewed`); one whose new key another expression has is dropped, and
the groups of both are to be merged (`dropped`). Either step leaves one expression fewer with outdated
inputs, and the congruences of the memo and its pending merges stay the same.
-/

namespace Cascade.Memo

variable {σ κ : Type}

theorem expr?_modifyExpr (m : Memo σ κ) (id : ExprId) (f : MemoExpr → MemoExpr) (i : ExprId) :
    (m.modifyExpr id f).expr? i = (m.expr? i).map (fun x => if i = id then f x else x) := by
  have hindex : id.index = i.index ↔ i = id := by
    cases i
    cases id
    simp [eq_comm]
  simp only [expr?, modifyExpr, List.getElem?_modify, Option.map_eq_map, hindex]

/-- The memo once an expression is found under its new key. -/
def renewed (m : Memo σ κ) (id : ExprId) (e : MemoExpr) : Memo σ κ :=
  { m.rewriteInputs id e with index := (m.index.erase e.key).set (m.newKey e) id }

/-- The memo once an expression is dropped. -/
def dropped (m : Memo σ κ) (id : ExprId) (e : MemoExpr) : Memo σ κ :=
  { (m.rewriteInputs id e).withdraw id (m.find e.group) with index := m.index.erase e.key }

/-- The merge that two duplicates ask for. -/
def mergeOf (m : Memo σ κ) (e o : MemoExpr) : List Merge :=
  if m.find e.group = m.find o.group then [] else [(m.find e.group, m.find o.group)]

theorem find_rewriteInputs (m : Memo σ κ) (id : ExprId) (e : MemoExpr) (g : GroupId) :
    (m.rewriteInputs id e).find g = m.find g := rfl

theorem expr?_rewriteInputs (m : Memo σ κ) (id : ExprId) (e : MemoExpr) (i : ExprId) :
    (m.rewriteInputs id e).expr? i =
      (m.expr? i).map (fun x => if i = id then { x with inputs := e.inputs.map m.find } else x) :=
  expr?_modifyExpr m id _ i

variable {m : Memo σ κ} {excused : ExprId → GroupId → Prop} {id : ExprId} {e : MemoExpr}

/-- An expression is renewed, or dropped in favour of another one. -/
theorem redirectInputs_cases (c : m.CoherentBut excused) (he : m.Live id e) (merges : List Merge) :
    ((∀ j x, m.Live j x → j ≠ id → x.key ≠ m.newKey e) ∧
      redirectInputs (m, merges) id = (m.renewed id e, merges)) ∨
    ∃ other o, m.Live other o ∧ other ≠ id ∧ o.key = m.newKey e ∧
      redirectInputs (m, merges) id = (m.dropped id e, merges ++ m.mergeOf e o) := by
  have hold : m.index.get? e.key = some id := (c.index_iff _ _).2 ⟨e, he, rfl⟩
  have hindex : (m.rewriteInputs id e).index = m.index.erase e.key := if_pos hold
  have hnew : (m.index.erase e.key).get? (m.newKey e) =
      if m.newKey e = e.key then none else m.index.get? (m.newKey e) := Lookup.get?_erase _ _ _
  unfold redirectInputs
  simp only [he.1, hindex, find_rewriteInputs, expr?_rewriteInputs]
  cases hget : (m.index.erase e.key).get? (m.newKey e) with
  | none =>
    refine .inl ⟨fun j x hx hj hk => ?_, rfl⟩
    rw [hnew, (c.index_iff _ _).2 ⟨x, hx, hk⟩] at hget
    split at hget
    · rename_i hsame
      exact hj (c.eq_of_key hx he (hk.trans hsame))
    · cases hget
  | some other =>
    right
    rw [hnew] at hget
    split at hget
    · cases hget
    · rename_i hdiff
      obtain ⟨o, ho, hk⟩ := (c.index_iff _ _).1 hget
      have hne : other ≠ id := by
        rintro rfl
        rw [ho.unique he] at hk
        exact hdiff hk.symm
      refine ⟨other, o, ho, hne, hk, ?_⟩
      simp only [if_neg hne, ho.1, Option.map_some, Option.getD_some]
      refine Prod.ext ?_ ?_
      · unfold dropped
        rw [← hindex]
        rfl
      · unfold mergeOf
        split
        · exact (List.append_nil _).symm
        · rfl

theorem live_renewed_iff (he : m.Live id e) (i : ExprId) (x : MemoExpr) : (m.renewed id e).Live i x ↔
    (i = id ∧ x = { e with inputs := e.inputs.map m.find }) ∨ (i ≠ id ∧ m.Live i x) := by
  have hexpr : (m.renewed id e).expr? i =
      (m.expr? i).map (fun x => if i = id then { x with inputs := e.inputs.map m.find } else x) :=
    expr?_rewriteInputs m id e i
  unfold Live
  rw [hexpr]
  by_cases hi : i = id
  · subst hi
    rw [he.1, Option.map_some, if_pos rfl]
    constructor
    · rintro ⟨hx, -⟩
      exact .inl ⟨rfl, (Option.some.inj hx).symm⟩
    · rintro (⟨-, rfl⟩ | ⟨hne, -⟩)
      · exact ⟨rfl, he.2⟩
      · exact absurd rfl hne
  · simp [hi]

theorem expr?_dropped (m : Memo σ κ) (id : ExprId) (e : MemoExpr) (i : ExprId) : (m.dropped id e).expr? i =
    (m.expr? i).map (fun x => if i = id then { x with inputs := e.inputs.map m.find, removed := true } else x) := by
  have hexpr : (m.dropped id e).expr? i = ((m.rewriteInputs id e).expr? i).map
      (fun x => if i = id then { x with removed := true } else x) :=
    expr?_modifyExpr (m.rewriteInputs id e) id _ i
  rw [hexpr, expr?_rewriteInputs, Option.map_map]
  congr 1
  funext x
  by_cases hi : i = id
  · simp [hi]
  · simp [hi]

theorem live_dropped_iff (m : Memo σ κ) (id : ExprId) (e : MemoExpr) (i : ExprId) (x : MemoExpr) :
    (m.dropped id e).Live i x ↔ i ≠ id ∧ m.Live i x := by
  unfold Live
  rw [expr?_dropped]
  by_cases hi : i = id
  · subst hi
    simp only [if_true, ne_eq, not_true, false_and, iff_false]
    rintro ⟨hx, hr⟩
    obtain ⟨y, -, rfl⟩ := Option.map_eq_some_iff.1 hx
    cases hr
  · simp [hi]

theorem groups_dropped (m : Memo σ κ) (id : ExprId) (e : MemoExpr) (g : GroupId) :
    (m.dropped id e).groups[g.index]? = (m.groups[g.index]?).map (fun x =>
      if m.find e.group = g then { x with members := x.members.filter (fun k => !decide (k = id)) } else x) := by
  have hindex : (m.find e.group).index = g.index ↔ m.find e.group = g := by
    cases g
    cases m.find e.group
    simp
  simp only [dropped, withdraw, modifyGroup, List.getElem?_modify, Option.map_eq_map, hindex]
  rfl

theorem stores_dropped {g : GroupId} {y : Group σ} (h : (m.dropped id e).Stores g y) : ∃ x, m.Stores g x ∧
    y = if m.find e.group = g then { x with members := x.members.filter (fun k => !decide (k = id)) } else x := by
  obtain ⟨x, hx, hxy⟩ := Option.map_eq_some_iff.1 ((groups_dropped m id e g).symm.trans h)
  exact ⟨x, hx, hxy.symm⟩

theorem survives_renewed (c : m.CoherentBut excused) (hknown : ∀ i g, excused i g → m.Knows g) (he : m.Live id e)
    {g : GroupId} (hg : g ∈ e.inputs.map m.find) : m.Survives g := by
  obtain ⟨i, hi, rfl⟩ := List.mem_map.1 hg
  exact survives_find ((c.inputs_survive he i hi).elim (fun h => h.1) (hknown id i))

theorem coherent_renewed (c : m.CoherentBut excused) (hknown : ∀ i g, excused i g → m.Knows g) (he : m.Live id e)
    (hnew : ∀ j x, m.Live j x → j ≠ id → x.key ≠ m.newKey e) :
    (m.renewed id e).CoherentBut (fun i g => i ≠ id ∧ excused i g) where
  links_size := c.links_size
  inputs_survive := by
    intro i x hx g hg
    rcases (live_renewed_iff he i x).1 hx with ⟨-, rfl⟩ | ⟨hi, hx⟩
    · exact .inl (survives_renewed c hknown he hg)
    · exact (c.inputs_survive hx g hg).imp_right fun h => ⟨hi, h⟩
  index_iff := by
    intro k i
    have hget : (m.renewed id e).index.get? k =
        if k = m.newKey e then some id else if k = e.key then none else m.index.get? k := by
      unfold renewed
      rw [Lookup.get?_set, Lookup.get?_erase]
    simp only [live_renewed_iff he]
    rw [hget]
    constructor
    · intro h
      split at h
      · rename_i hk
        exact ⟨_, .inl ⟨(Option.some.inj h).symm, rfl⟩, hk.symm⟩
      · split at h
        · cases h
        · rename_i hk
          obtain ⟨x, hx, rfl⟩ := (c.index_iff k i).1 h
          refine ⟨x, .inr ⟨?_, hx⟩, rfl⟩
          rintro rfl
          exact hk (congrArg MemoExpr.key (hx.unique he))
    · rintro ⟨x, ⟨rfl, rfl⟩ | ⟨hi, hx⟩, rfl⟩
      · exact if_pos rfl
      · rw [if_neg (hnew i x hx hi), if_neg (fun hk => hi (c.eq_of_key hx he hk))]
        exact (c.index_iff _ i).2 ⟨x, hx, rfl⟩
  members_iff := by
    intro g x hx i
    refine (c.members_iff (g := g) hx i).trans ?_
    simp only [live_renewed_iff he]
    constructor
    · rintro ⟨y, hy, hg⟩
      by_cases hi : i = id
      · subst hi
        exact ⟨_, .inl ⟨rfl, rfl⟩, he.unique hy ▸ hg⟩
      · exact ⟨y, .inr ⟨hi, hy⟩, hg⟩
    · rintro ⟨y, ⟨rfl, rfl⟩ | ⟨-, hy⟩, hg⟩
      · exact ⟨e, he, hg⟩
      · exact ⟨y, hy, hg⟩
  members_nodup hx := c.members_nodup hx
  group_known := by
    intro i x hx
    obtain ⟨y, hy, rfl⟩ := Option.map_eq_some_iff.1 ((expr?_rewriteInputs m id e i).symm.trans hx)
    split
    · exact c.group_known (e := y) hy
    · exact c.group_known hy
  winners_nil hx hg := c.winners_nil hx hg
  producers_survive h := c.producers_survive h
  index_rows := by
    intro r hr
    have hlen : (m.renewed id e).exprs.length = m.exprs.length := List.length_modify ..
    rw [hlen]
    rcases Lookup.mem_rows_set hr with rfl | hr
    · exact lt_of_expr? he.1
    · exact c.index_rows r (Lookup.mem_rows_erase hr)
  arity := by
    intro i x hx k hk
    obtain ⟨y, hy, rfl⟩ := Option.map_eq_some_iff.1 ((expr?_rewriteInputs m id e i).symm.trans hx)
    by_cases hi : i = id
    · subst hi
      rw [if_pos rfl] at hk ⊢
      exact (List.length_map ..).trans (c.arity he.1 k (Option.some.inj (hy.symm.trans he.1) ▸ hk))
    · rw [if_neg hi] at hk ⊢
      exact c.arity hy k hk

theorem coherent_dropped (c : m.CoherentBut excused) (he : m.Live id e) :
    (m.dropped id e).CoherentBut (fun i g => i ≠ id ∧ excused i g) where
  links_size := by simp [dropped, withdraw, modifyGroup, modifyExpr, rewriteInputs, c.links_size]
  inputs_survive := by
    intro i x hx g hg
    obtain ⟨hi, hx⟩ := (live_dropped_iff m id e i x).1 hx
    have hsurvives : (m.dropped id e).Survives g ↔ m.Survives g := by
      simp only [Survives, Knows, dropped, withdraw, modifyGroup, List.length_modify]
      rfl
    exact (c.inputs_survive hx g hg).imp hsurvives.2 fun h => ⟨hi, h⟩
  index_iff := by
    intro k i
    have hget : (m.dropped id e).index.get? k = if k = e.key then none else m.index.get? k := Lookup.get?_erase _ _ _
    simp only [live_dropped_iff]
    rw [hget]
    constructor
    · intro h
      split at h
      · cases h
      · rename_i hk
        obtain ⟨x, hx, rfl⟩ := (c.index_iff k i).1 h
        refine ⟨x, ⟨?_, hx⟩, rfl⟩
        rintro rfl
        exact hk (congrArg MemoExpr.key (hx.unique he))
    · rintro ⟨x, ⟨hi, hx⟩, rfl⟩
      rw [if_neg (fun hk => hi (c.eq_of_key hx he hk))]
      exact (c.index_iff _ i).2 ⟨x, hx, rfl⟩
  members_iff := by
    intro g y hy i
    obtain ⟨x, hx, rfl⟩ := stores_dropped hy
    have hfind : ∀ h, (m.dropped id e).find h = m.find h := fun _ => rfl
    simp only [live_dropped_iff, hfind, and_assoc, exists_and_left]
    split
    · simp only [List.mem_filter, Bool.not_eq_true', decide_eq_false_iff_not, c.members_iff hx i]
      exact and_comm
    · rename_i hg
      rw [c.members_iff hx i]
      refine ⟨fun h => ⟨?_, h⟩, fun h => h.2⟩
      rintro rfl
      obtain ⟨x', hx', he'⟩ := h
      exact hg (he.unique hx' ▸ he')
  members_nodup := by
    intro g y hy
    obtain ⟨x, hx, rfl⟩ := stores_dropped hy
    split
    · exact (c.members_nodup hx).filter _
    · exact c.members_nodup hx
  group_known := by
    intro i x hx
    rw [expr?_dropped] at hx
    obtain ⟨y, hy, rfl⟩ := Option.map_eq_some_iff.1 hx
    have hknows : ∀ g, m.Knows g → (m.dropped id e).Knows g := by
      simp [Knows, dropped, withdraw, modifyGroup, modifyExpr, rewriteInputs]
    split
    · exact hknows _ (c.group_known (e := y) hy)
    · exact hknows _ (c.group_known hy)
  winners_nil := by
    intro g y hy hg
    obtain ⟨x, hx, rfl⟩ := stores_dropped hy
    have := c.winners_nil hx hg
    split <;> exact this
  producers_survive := by
    intro cte g hg
    obtain ⟨hk, hf⟩ := c.producers_survive hg
    refine ⟨?_, hf⟩
    simpa [Knows, dropped, withdraw, modifyGroup, modifyExpr, rewriteInputs] using hk
  index_rows := by
    intro r hr
    have hlen : (m.dropped id e).exprs.length = m.exprs.length := by
      simp [dropped, withdraw, modifyGroup, modifyExpr, rewriteInputs]
    rw [hlen]
    exact c.index_rows r (Lookup.mem_rows_erase hr)
  arity := by
    intro i x hx k hk
    rw [expr?_dropped] at hx
    obtain ⟨y, hy, rfl⟩ := Option.map_eq_some_iff.1 hx
    by_cases hi : i = id
    · subst hi
      rw [if_pos rfl] at hk ⊢
      exact (List.length_map ..).trans (c.arity he.1 k (Option.some.inj (hy.symm.trans he.1) ▸ hk))
    · rw [if_neg hi] at hk ⊢
      exact c.arity hy k hk

end Cascade.Memo
