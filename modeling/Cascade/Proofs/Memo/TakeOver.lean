import Cascade.Proofs.Memo.Contexts
import Cascade.Proofs.Memo.Representation

/-!
One group takes over the content of another. What a memo looks like afterwards, before the expressions
over the dissolved group are written anew, is given field by field (`linkedMemo`); the memo agrees with
itself then but for the inputs that still name the dissolved group.
-/

namespace Cascade.Memo

variable {σ κ : Type}

/-- Only the winners of a group and the contexts differ: winners are kept or come from a list, and
contexts may have been pruned. -/
def WinnersChanged (g : GroupId) (offers : List (Required × ContextId)) (m n : Memo σ κ) : Prop :=
  ∃ (f : Lookup Required ContextId → Lookup Required ContextId) (c : ContextStore κ),
    n = { m.modifyGroup g (fun x => { x with winners := f x.winners }) with contexts := c } ∧
      (∀ l, ∀ r ∈ (f l).rows, r ∈ l.rows ∨ r ∈ offers) ∧
      (∀ l r, l.contains r = true → (f l).contains r = true) ∧ m.contexts.PrunedTo c

theorem WinnersChanged.of_pruned (g : GroupId) (offers : List (Required × ContextId)) (m : Memo σ κ)
    {c : ContextStore κ} (hc : m.contexts.PrunedTo c) : WinnersChanged g offers m { m with contexts := c } := by
  refine ⟨id, c, ?_, fun _ _ hr => .inl hr, fun _ _ hr => hr, hc⟩
  have : (fun x : Group σ => { x with winners := id x.winners }) = id := rfl
  rw [modifyGroup, this, List.modify_id]

theorem WinnersChanged.trans {g : GroupId} {offers : List (Required × ContextId)} {m n o : Memo σ κ}
    (h : WinnersChanged g offers m n) (k : WinnersChanged g offers n o) : WinnersChanged g offers m o := by
  obtain ⟨f, c, rfl, hf, hkeep, hc⟩ := h
  obtain ⟨f', c', rfl, hf', hkeep', hc'⟩ := k
  refine ⟨f' ∘ f, c', ?_, fun l r hr => (hf' _ r hr).elim (hf l r) .inr, fun l r hr => hkeep' _ r (hkeep l r hr),
    hc.trans hc'⟩
  simp only [modifyGroup, List.modify_modify_eq]
  rfl

theorem groups_modifyGroup_self {m : Memo σ κ} {g : GroupId} {x : Group σ} (hx : m.groups[g.index]? = some x)
    (f : Group σ → Group σ) : (m.modifyGroup g f).groups[g.index]? = some (f x) := by
  simp [modifyGroup, hx]

section

variable [LT κ] [DecidableLT κ]

theorem winnersChanged_adoptWinner (g : GroupId) {offers : List (Required × ContextId)} (m : Memo σ κ)
    {w : Required × ContextId} (hw : w ∈ offers) : WinnersChanged g offers m (adoptWinner g m w) := by
  have installed : ∀ l : Lookup Required ContextId, ∀ r ∈ (l.set w.1 w.2).rows, r ∈ l.rows ∨ r ∈ offers := by
    intro l r hr
    rcases Lookup.mem_rows_set hr with rfl | hr
    · exact .inr hw
    · exact .inl hr
  have kept : ∀ (l : Lookup Required ContextId) r, l.contains r = true → (l.set w.1 w.2).contains r = true :=
    fun l r hr => (l.contains_set_iff w.1 r w.2).2 (.inl hr)
  unfold adoptWinner
  dsimp only
  split
  · exact ⟨fun l => l.set w.1 w.2, m.contexts, rfl, installed, kept, .refl _⟩
  · split
    · exact ⟨fun l => l.set w.1 w.2, _, rfl, installed, kept, m.contexts.prunedTo_release _⟩
    · exact .of_pruned g offers m (m.contexts.prunedTo_release _)

theorem winnersChanged_adoptAll (g : GroupId) {offers : List (Required × ContextId)}
    (ws : List (Required × ContextId)) (hws : ∀ w ∈ ws, w ∈ offers) (m : Memo σ κ) :
    WinnersChanged g offers m (ws.foldl (adoptWinner g) m) := by
  induction ws generalizing m with
  | nil => exact .of_pruned g offers m (.refl _)
  | cons w ws ih =>
    have hw := winnersChanged_adoptWinner g m (hws w (List.mem_cons_self ..))
    exact hw.trans (ih (fun v hv => hws v (List.mem_cons_of_mem _ hv)) _)

/-- A group that has been offered a winner has one. -/
theorem exists_adopted {m : Memo σ κ} {g : GroupId} {x : Group σ} (hx : m.groups[g.index]? = some x)
    (w : Required × ContextId) :
    ∃ y, (adoptWinner g m w).groups[g.index]? = some y ∧ y.winners.contains w.1 = true := by
  have hset := groups_modifyGroup_self hx (fun x => { x with winners := x.winners.set w.1 w.2 })
  have hnew := (x.winners.contains_set_iff w.1 w.1 w.2).2 (.inr rfl)
  unfold adoptWinner
  dsimp only
  split
  · exact ⟨_, hset, hnew⟩
  · rename_i current hcurrent
    split
    · exact ⟨_, hset, hnew⟩
    · rw [hx] at hcurrent
      exact ⟨x, hx, Option.isSome_iff_exists.2 ⟨current, hcurrent⟩⟩

theorem exists_adoptedAll {g : GroupId} {x : Group σ} (ws : List (Required × ContextId)) {m : Memo σ κ}
    (hx : m.groups[g.index]? = some x) : ∃ y, (ws.foldl (adoptWinner g) m).groups[g.index]? = some y ∧
      ∀ w ∈ ws, y.winners.contains w.1 = true := by
  induction ws generalizing m x with
  | nil => exact ⟨x, hx, nofun⟩
  | cons w ws ih =>
    obtain ⟨y, hy, hw⟩ := exists_adopted hx w
    obtain ⟨z, hz, hws⟩ := ih hy
    refine ⟨z, hz, List.forall_mem_cons.2 ⟨?_, hws⟩⟩
    -- what is adopted later takes no winner away
    obtain ⟨f, c, heq, -, hkeep, -⟩ := winnersChanged_adoptAll g ws (fun _ hv => hv) (adoptWinner g m w)
    have hget : z = { y with winners := f y.winners } := by
      rw [heq] at hz
      exact Option.some.inj (hz.symm.trans (groups_modifyGroup_self hy _))
    rw [hget]
    exact hkeep _ _ hw

end

/-- The expressions of a list move to a group. -/
def regroup (g : GroupId) (ids : List ExprId) (l : List MemoExpr) : List MemoExpr :=
  ids.foldl (fun l e => l.modify e.index (fun x => { x with group := g })) l

theorem foldl_modifyExpr (g : GroupId) (ids : List ExprId) (m : Memo σ κ) :
    ids.foldl (fun m e => m.modifyExpr e (fun x => { x with group := g })) m =
      { m with exprs := regroup g ids m.exprs } := by
  induction ids generalizing m with
  | nil => rfl
  | cons id ids ih => exact ih _

theorem map_applied_regroup (g : GroupId) (ids : List ExprId) (l : List MemoExpr) :
    (regroup g ids l).map MemoExpr.applied = l.map MemoExpr.applied := by
  induction ids generalizing l with
  | nil => rfl
  | cons id ids ih =>
    have hfirst := map_modify_of_eq MemoExpr.applied (fun x : MemoExpr => { x with group := g }) (fun _ => rfl) l id.index
    exact (ih _).trans hfirst

theorem getElem?_regroup (g : GroupId) (ids : List ExprId) (l : List MemoExpr) (id : ExprId) :
    (regroup g ids l)[id.index]? = (l[id.index]?).map (fun e => if id ∈ ids then { e with group := g } else e) := by
  induction ids generalizing l with
  | nil => simp [regroup]
  | cons k ids ih =>
    have hcons : regroup g (k :: ids) l = regroup g ids (l.modify k.index (fun x => { x with group := g })) := rfl
    have hk : k.index = id.index ↔ id = k := by
      cases k
      cases id
      simp [eq_comm]
    rw [hcons, ih, List.getElem?_modify, Option.map_eq_map, Option.map_map]
    congr 1
    funext e
    by_cases he : id = k
    · simp [he]
    · simp [he, mt hk.1 he]

@[simp] theorem length_regroup (g : GroupId) (ids : List ExprId) (l : List MemoExpr) :
    (regroup g ids l).length = l.length := by
  induction ids generalizing l with
  | nil => rfl
  | cons id ids ih => exact (ih _).trans (List.length_modify ..)

/-- The memo after one group has taken over another, field by field; `f` and `c` are what becomes of the
winners and the contexts. -/
def linkedMemo (m : Memo σ κ) (survivor dissolved : GroupId) (h : survivor.index ≤ dissolved.index)
    (content : Group σ) (f : Lookup Required ContextId → Lookup Required ContextId) (c : ContextStore κ) :
    Memo σ κ :=
  { m with
    groups := (m.groups.modify survivor.index (fun x => { absorb content x with winners := f x.winners })).modify
      dissolved.index vacate
    links := m.links.link dissolved.index survivor.index h
    exprs := regroup survivor content.members m.exprs
    contexts := c
    cteProducers := m.cteProducers.mapValues (fun g => if g = dissolved then survivor else g) }

theorem mergeInto_eq [LT κ] [DecidableLT κ] (m : Memo σ κ) {survivor dissolved : GroupId}
    (h : survivor.index ≤ dissolved.index) (hne : survivor.index ≠ dissolved.index) (content : Group σ) :
    ∃ f c, (∀ l, ∀ r ∈ (f l).rows, r ∈ l.rows ∨ r ∈ content.winners.rows) ∧ m.contexts.PrunedTo c ∧
      (∀ x, m.groups[survivor.index]? = some x → ∀ r, x.winners.contains r = true ∨ content.winners.contains r = true →
        (f x.winners).contains r = true) ∧
      m.mergeInto survivor dissolved h content =
        ((m.linkedMemo survivor dissolved h content f c).referencing dissolved).foldl redirectInputs
          (m.linkedMemo survivor dissolved h content f c, []) := by
  obtain ⟨f, c, hw, hf, hkeep, hc⟩ := winnersChanged_adoptAll survivor content.winners.rows (fun _ hw => hw)
    (({ m with exprs := regroup survivor content.members m.exprs }.modifyGroup survivor
      (absorb content)).modifyGroup dissolved vacate)
  refine ⟨f, c, hf, hc, fun x hx r hr => hr.elim (hkeep _ r) fun hr => ?_, ?_⟩
  · have hx' : (({ m with exprs := regroup survivor content.members m.exprs }.modifyGroup survivor
        (absorb content)).modifyGroup dissolved vacate).groups[survivor.index]? = some (absorb content x) := by
      simp [modifyGroup, hx, Ne.symm hne]
    obtain ⟨y, hy, htaken⟩ := exists_adoptedAll content.winners.rows hx'
    obtain ⟨id, hid⟩ := Option.isSome_iff_exists.1 hr
    have hget : y = { absorb content x with winners := f x.winners } := by
      rw [hw] at hy
      exact Option.some.inj (hy.symm.trans (groups_modifyGroup_self hx' _))
    have := htaken _ (Lookup.mem_rows_of_get? hid)
    rwa [hget] at this
  have hgroups : ((m.groups.modify survivor.index (absorb content)).modify dissolved.index vacate).modify
      survivor.index (fun x => { x with winners := f x.winners }) =
      (m.groups.modify survivor.index (fun x => { absorb content x with winners := f x.winners })).modify
        dissolved.index vacate := by
    rw [List.modify_modify_ne _ _ _ (Ne.symm hne), List.modify_modify_eq]
    rfl
  unfold mergeInto takeOver
  simp only [foldl_modifyExpr]
  rw [hw]
  simp only [modifyGroup]
  rw [hgroups]
  rfl

theorem mem_referencing_iff (m : Memo σ κ) (g : GroupId) (id : ExprId) :
    id ∈ m.referencing g ↔ ∃ e, m.Live id e ∧ g ∈ e.inputs := by
  simp only [referencing, List.mem_map, List.mem_filter, Prod.exists, List.mem_zipIdx_iff_getElem?,
    Bool.and_eq_true, Bool.not_eq_true', decide_eq_true_eq]
  constructor
  · rintro ⟨e, i, ⟨he, hlive, hg⟩, rfl⟩
    exact ⟨e, ⟨he, hlive⟩, hg⟩
  · rintro ⟨e, ⟨he, hlive⟩, hg⟩
    exact ⟨e, id.index, ⟨he, hlive, hg⟩, rfl⟩

theorem nodup_referencing (m : Memo σ κ) (g : GroupId) : (m.referencing g).Nodup := by
  have hindices : ((m.exprs.zipIdx.filter (fun x => !x.1.removed && decide (g ∈ x.1.inputs))).map Prod.snd).Nodup := by
    refine List.Sublist.nodup (List.Sublist.map _ (List.filter_sublist ..)) ?_
    rw [List.zipIdx_map_snd]
    exact List.nodup_range'
  have hmap : m.referencing g =
      ((m.exprs.zipIdx.filter (fun x => !x.1.removed && decide (g ∈ x.1.inputs))).map Prod.snd).map ExprId.mk := by
    rw [List.map_map]
    rfl
  rw [hmap]
  exact List.pairwise_map.2 (hindices.imp fun hne he => hne (ExprId.mk.inj he))

/-- What a group that survives a link stands for afterwards. -/
def relink (survivor dissolved g : GroupId) : GroupId := if g = dissolved then survivor else g

section Linked

variable {m : Memo σ κ} {survivor dissolved : GroupId} {content : Group σ}
  {f : Lookup Required ContextId → Lookup Required ContextId} {c : ContextStore κ}

/-- Two surviving groups, the first one with the smaller number. -/
structure Mergeable (m : Memo σ κ) (survivor dissolved : GroupId) (content : Group σ) : Prop where
  lt : survivor.index < dissolved.index
  survivor_survives : m.Survives survivor
  dissolved_survives : m.Survives dissolved
  stores : m.Stores dissolved content

theorem Mergeable.ne (h : m.Mergeable survivor dissolved content) : survivor ≠ dissolved :=
  fun he => Nat.lt_irrefl _ (he ▸ h.lt)

theorem find_linked (h : m.Mergeable survivor dissolved content) (hsize : m.links.size = m.groups.length)
    (g : GroupId) : (m.linkedMemo survivor dissolved (Nat.le_of_lt h.lt) content f c).find g =
      relink survivor dissolved (m.find g) := by
  have hk : dissolved.index < m.links.size := hsize ▸ h.dissolved_survives.1
  have hfind := m.links.find_link h.lt hk (congrArg GroupId.index h.dissolved_survives.2)
    (congrArg GroupId.index h.survivor_survives.2) g.index
  have hiff : m.find g = dissolved ↔ m.links.find g.index = dissolved.index := by
    cases dissolved
    simp [find]
  unfold relink
  refine (congrArg GroupId.mk hfind).trans ?_
  by_cases he : m.find g = dissolved
  · rw [if_pos he, if_pos (hiff.1 he)]
  · rw [if_neg he, if_neg (mt hiff.2 he)]
    rfl

theorem relink_ne_dissolved (h : m.Mergeable survivor dissolved content) (g : GroupId) :
    relink survivor dissolved g ≠ dissolved := by
  unfold relink
  split
  · exact h.ne
  · assumption

theorem survives_linked_iff (h : m.Mergeable survivor dissolved content) (hsize : m.links.size = m.groups.length)
    (g : GroupId) : (m.linkedMemo survivor dissolved (Nat.le_of_lt h.lt) content f c).Survives g ↔
      m.Survives g ∧ g ≠ dissolved := by
  have hlen : (m.linkedMemo survivor dissolved (Nat.le_of_lt h.lt) content f c).groups.length = m.groups.length := by
    simp [linkedMemo]
  unfold Survives Knows
  rw [find_linked h hsize, hlen]
  constructor
  · rintro ⟨hk, hg⟩
    have hne : g ≠ dissolved := fun he => relink_ne_dissolved h (m.find g) (hg.trans he)
    refine ⟨⟨hk, ?_⟩, hne⟩
    unfold relink at hg
    split at hg
    · -- the survivor stands for itself, so its group cannot have been the dissolved one
      rename_i hd
      rw [← hg, h.survivor_survives.2] at hd
      exact absurd hd h.ne
    · exact hg
  · rintro ⟨⟨hk, hg⟩, hne⟩
    exact ⟨hk, by rw [hg, relink, if_neg hne]⟩

theorem expr?_linked (m : Memo σ κ) (h : survivor.index ≤ dissolved.index) (id : ExprId) :
    (m.linkedMemo survivor dissolved h content f c).expr? id =
      (m.expr? id).map (fun e => if id ∈ content.members then { e with group := survivor } else e) :=
  getElem?_regroup survivor content.members m.exprs id

/-- An expression that moves stays in its class. -/
theorem find_group_linked (h : m.Mergeable survivor dissolved content) (hc : m.Coherent) {id : ExprId}
    {e : MemoExpr} (he : m.expr? id = some e) :
    (m.linkedMemo survivor dissolved (Nat.le_of_lt h.lt) content f c).find
        (if id ∈ content.members then { e with group := survivor } else e).group =
      relink survivor dissolved (m.find e.group) := by
  rw [find_linked h hc.links_size]
  split
  · rename_i hid
    obtain ⟨e', he', hd⟩ := (hc.members_iff h.stores id).1 hid
    rw [Option.some.inj (he.symm.trans he'.1), hd, h.survivor_survives.2]
    simp [relink]
  · rfl

theorem live_linked (h : m.Mergeable survivor dissolved content) (hc : m.Coherent) (id : ExprId)
    (p : GroupId → Operator → List GroupId → Prop) :
    (∃ e, (m.linkedMemo survivor dissolved (Nat.le_of_lt h.lt) content f c).Live id e ∧
        p ((m.linkedMemo survivor dissolved (Nat.le_of_lt h.lt) content f c).find e.group) e.op e.inputs) ↔
      ∃ e, m.Live id e ∧ p (relink survivor dissolved (m.find e.group)) e.op e.inputs := by
  constructor
  · rintro ⟨e, ⟨he, hr⟩, hp⟩
    rw [expr?_linked] at he
    obtain ⟨e0, he0, rfl⟩ := Option.map_eq_some_iff.1 he
    rw [find_group_linked h hc he0] at hp
    refine ⟨e0, ⟨he0, ?_⟩, ?_⟩
    · split at hr <;> exact hr
    · split at hp <;> exact hp
  · rintro ⟨e0, he0, hp⟩
    refine ⟨if id ∈ content.members then { e0 with group := survivor } else e0, ⟨?_, ?_⟩, ?_⟩
    · rw [expr?_linked, he0.1]
      rfl
    · split <;> exact he0.2
    · rw [find_group_linked h hc he0.1]
      split <;> exact hp

theorem stores_linked {h : survivor.index ≤ dissolved.index} {g : GroupId} {y : Group σ}
    (hy : (m.linkedMemo survivor dissolved h content f c).Stores g y) : ∃ x, m.Stores g x ∧ y.logical = x.logical ∧
      ((g = dissolved ∧ y.members = [] ∧ y.winners.rows = []) ∨
        (g ≠ dissolved ∧ g = survivor ∧ y.members = x.members ++ content.members ∧ y.winners = f x.winners) ∨
        (g ≠ dissolved ∧ g ≠ survivor ∧ y = x)) := by
  have hindex : ∀ k : GroupId, k.index = g.index ↔ g = k := by
    intro k
    cases g
    cases k
    simp [eq_comm]
  simp only [Stores, linkedMemo, List.getElem?_modify, Option.map_eq_map, Option.map_map, Function.comp_def,
    hindex] at hy
  obtain ⟨x, hx, rfl⟩ := Option.map_eq_some_iff.1 hy
  refine ⟨x, hx, ?_⟩
  by_cases hd : g = dissolved
  · rw [if_pos hd]
    refine ⟨?_, .inl ⟨hd, rfl, rfl⟩⟩
    split <;> rfl
  · rw [if_neg hd]
    by_cases hs : g = survivor
    · rw [if_pos hs]
      exact ⟨rfl, .inr (.inl ⟨hd, hs, rfl, rfl⟩)⟩
    · rw [if_neg hs]
      exact ⟨rfl, .inr (.inr ⟨hd, hs, rfl⟩)⟩

/-- What the survivor stores afterwards. -/
theorem stores_survivor {h : survivor.index ≤ dissolved.index} (hne : survivor ≠ dissolved) {y : Group σ}
    (hy : (m.linkedMemo survivor dissolved h content f c).Stores survivor y) :
    ∃ x, m.Stores survivor x ∧ y = { absorb content x with winners := f x.winners } := by
  have hindex : dissolved.index ≠ survivor.index := fun he => hne (by cases survivor; cases dissolved; exact congrArg GroupId.mk he.symm)
  simp only [Stores, linkedMemo, List.getElem?_modify, Option.map_eq_map, if_neg hindex, if_true, Option.map_id'] at hy
  obtain ⟨x, hx, rfl⟩ := Option.map_eq_some_iff.1 hy
  exact ⟨x, hx, rfl⟩

/-- After a group was taken over, only the inputs that name it are out of date. -/
theorem coherent_linked (h : m.Mergeable survivor dissolved content) (hc : m.Coherent) :
    (m.linkedMemo survivor dissolved (Nat.le_of_lt h.lt) content f c).CoherentBut (fun id g => g = dissolved ∧
      id ∈ (m.linkedMemo survivor dissolved (Nat.le_of_lt h.lt) content f c).referencing dissolved) where
  links_size := by simp [linkedMemo, hc.links_size]
  inputs_survive := by
    intro id e he g hg
    obtain ⟨e0, he0, hg0⟩ := (live_linked h hc id (fun _ _ inputs => g ∈ inputs)).1 ⟨e, he, hg⟩
    by_cases hd : g = dissolved
    · exact .inr ⟨hd, (mem_referencing_iff _ _ _).2 ⟨e, he, hd ▸ hg⟩⟩
    · exact .inl ((survives_linked_iff h hc.links_size g).2 ⟨hc.input_survives he0 hg0, hd⟩)
  index_iff k id := (hc.index_iff k id).trans
    (live_linked h hc id (fun _ op inputs => ExprKey.mk op inputs = k)).symm
  members_iff := by
    intro g y hy id
    rw [live_linked h hc id (fun group _ _ => group = g)]
    obtain ⟨x, hx, -, ⟨rfl, hm, -⟩ | ⟨hd, rfl, hm, -⟩ | ⟨hd, hs, rfl⟩⟩ := stores_linked hy
    · rw [hm]
      exact ⟨fun hid => absurd hid List.not_mem_nil, fun ⟨e, _, he⟩ => absurd he (relink_ne_dissolved h _)⟩
    · rw [hm, List.mem_append, hc.members_iff hx id, hc.members_iff h.stores id, ← exists_or]
      refine exists_congr fun e => ?_
      rw [← and_or_left]
      unfold relink
      split
      · simp [*]
      · simp [*]
    · rw [hc.members_iff hx id]
      refine exists_congr fun e => and_congr_right fun _ => ?_
      unfold relink
      split
      · rename_i he
        rw [he]
        exact ⟨fun hg => absurd hg.symm hd, fun hg => absurd hg.symm hs⟩
      · rfl
  members_nodup := by
    intro g y hy
    obtain ⟨x, hx, -, ⟨rfl, hm, -⟩ | ⟨hd, rfl, hm, -⟩ | ⟨hd, hs, rfl⟩⟩ := stores_linked hy
    · rw [hm]
      exact List.nodup_nil
    · rw [hm]
      refine List.nodup_append.2 ⟨hc.members_nodup hx, hc.members_nodup h.stores, ?_⟩
      rintro id hid j hj rfl
      obtain ⟨e, he, hg⟩ := (hc.members_iff hx id).1 hid
      obtain ⟨e', he', hg'⟩ := (hc.members_iff h.stores id).1 hj
      rw [he.unique he', hg'] at hg
      exact hd hg.symm
    · exact hc.members_nodup hx
  group_known := by
    intro id e he
    have hlen : (m.linkedMemo survivor dissolved (Nat.le_of_lt h.lt) content f c).groups.length = m.groups.length := by
      simp [linkedMemo]
    unfold Knows
    rw [hlen]
    obtain ⟨e0, he0, rfl⟩ := Option.map_eq_some_iff.1 ((expr?_linked m _ id).symm.trans he)
    split
    · exact h.survivor_survives.1
    · exact hc.group_known he0
  winners_nil := by
    intro g y hy hg
    obtain ⟨x, hx, -, ⟨-, -, hw⟩ | ⟨hd, rfl, -⟩ | ⟨hd, -, rfl⟩⟩ := stores_linked hy
    · exact hw
    · exact absurd ((survives_linked_iff h hc.links_size g).2 ⟨h.survivor_survives, hd⟩).2 hg
    · refine hc.winners_nil hx fun hs => hg ?_
      exact ((survives_linked_iff h hc.links_size g).2 ⟨⟨knows_of_content hx, hs⟩, hd⟩).2
  producers_survive := by
    intro cte g hg
    change (m.cteProducers.mapValues _).get? cte = some g at hg
    rw [Lookup.get?_mapValues] at hg
    obtain ⟨g0, hg0, rfl⟩ := Option.map_eq_some_iff.1 hg
    refine (survives_linked_iff h hc.links_size _).2 ?_
    split
    · exact ⟨h.survivor_survives, h.ne⟩
    · rename_i hd
      exact ⟨hc.producers_survive hg0, hd⟩
  index_rows := by
    intro r hr
    change r.2.index < (regroup survivor content.members m.exprs).length
    rw [length_regroup]
    exact hc.index_rows r hr
  arity := by
    intro id e he
    obtain ⟨e0, he0, rfl⟩ := Option.map_eq_some_iff.1 ((expr?_linked m _ id).symm.trans he)
    split
    · exact hc.arity (e := e0) he0
    · exact hc.arity he0

end Linked

end Cascade.Memo
