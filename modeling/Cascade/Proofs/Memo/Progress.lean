import Cascade.Proofs.Memo.Extension
import Cascade.Proofs.Memo.Redirect
import Cascade.Proofs.Memo.TakeOver

/-!
Progress of a merge. Each step of it trades pending merges for changes of the memo: the memo and its
pending merges have the same congruences before and after the step (`Progress.congruence_iff`), so no
merge is forgotten and none is made up.
-/

namespace Cascade.Memo

variable {σ κ : Type}

/-- Pending merges of groups the memo has. -/
def KnowsAll (m : Memo σ κ) (merges : List Merge) : Prop := ∀ p ∈ merges, m.Knows p.1 ∧ m.Knows p.2

/-- A memo with merges pending has come to another memo with other merges pending. -/
structure Progress (m : Memo σ κ) (merges : List Merge) (n : Memo σ κ) (rest : List Merge) : Prop
    extends Inherits m n, Carries m n where
  limit_eq : n.limit = m.limit
  applied_eq : n.exprs.map MemoExpr.applied = m.exprs.map MemoExpr.applied
  fades : Fades m n
  knows_iff : ∀ g, n.Knows g ↔ m.Knows g
  known : m.KnowsAll merges → n.KnowsAll rest
  congruence_iff : ∀ R, m.Congruence merges R ↔ n.Congruence rest R
  settles : ∀ {R}, n.Settles rest R → m.Settles merges R
  represented : ∀ {i y}, m.Live i y → ∃ j x, n.Live j x ∧ x.op = y.op ∧
    ∀ R, n.Settles rest R → R x.group y.group ∧ List.Forall₂ R x.inputs y.inputs

section

variable {m n o : Memo σ κ} {p q r : List Merge}

theorem Progress.length_exprs (h : Progress m p n q) : n.exprs.length = m.exprs.length := by
  simpa using congrArg List.length h.applied_eq

theorem Progress.refl (m : Memo σ κ) (q : List Merge) : Progress m q m q where
  toInherits := .refl m
  verify_eq := rfl
  producers := (Carries.refl m).producers
  limit_eq := rfl
  applied_eq := rfl
  fades := .refl m
  knows_iff _ := Iff.rfl
  known h := h
  congruence_iff _ := Iff.rfl
  settles h := h
  represented hy := ⟨_, _, hy, rfl, fun _ h => ⟨h.refl _, h.of_map_eq rfl⟩⟩

theorem Progress.trans (h : Progress m p n q) (k : Progress n q o r) : Progress m p o r where
  toInherits := h.toInherits.trans k.toInherits
  verify_eq := (h.toCarries.trans k.toCarries).verify_eq
  producers := (h.toCarries.trans k.toCarries).producers
  limit_eq := k.limit_eq.trans h.limit_eq
  applied_eq := k.applied_eq.trans h.applied_eq
  fades := h.fades.trans h.toExtends k.fades
  knows_iff g := (k.knows_iff g).trans (h.knows_iff g)
  known hm := k.known (h.known hm)
  congruence_iff R := (h.congruence_iff R).trans (k.congruence_iff R)
  settles ho := h.settles (k.settles ho)
  represented hy := by
    obtain ⟨_, x, hx, hop, hxy⟩ := h.represented hy
    obtain ⟨j, z, hz, hop', hzx⟩ := k.represented hx
    refine ⟨j, z, hz, hop'.trans hop, fun R hR => ?_⟩
    obtain ⟨hgroup, hinputs⟩ := hzx R hR
    obtain ⟨hgroup', hinputs'⟩ := hxy R (k.settles hR)
    exact ⟨hR.trans hgroup hgroup', hR.trans_all hinputs hinputs'⟩

theorem Progress.joined_iff (h : Progress m p n q) (a b : GroupId) : m.Joined p a b ↔ n.Joined q a b :=
  ⟨fun hab R hR => hab R ((h.congruence_iff R).2 hR), fun hab R hR => hab R ((h.congruence_iff R).1 hR)⟩

end

section Redirect

variable {m : Memo σ κ} {excused : ExprId → GroupId → Prop} {id : ExprId} {e : MemoExpr}

theorem map_find_map_find (m : Memo σ κ) (l : List GroupId) : (l.map m.find).map m.find = l.map m.find := by
  rw [List.map_map]
  exact List.map_congr_left fun g _ => m.find_find g

theorem mem_mergeOf {o : MemoExpr} {p : Merge} :
    p ∈ m.mergeOf e o ↔ m.find e.group ≠ m.find o.group ∧ p = (m.find e.group, m.find o.group) := by
  unfold mergeOf
  split
  · rename_i h
    simp [h]
  · rename_i h
    simp [h]

theorem settles_renewed_iff (m : Memo σ κ) (id : ExprId) (e : MemoExpr) (q : List Merge)
    (R : GroupId → GroupId → Prop) : (m.renewed id e).Settles q R ↔ m.Settles q R :=
  ⟨fun ⟨h, hf, hq⟩ => ⟨h, hf, hq⟩, fun ⟨h, hf, hq⟩ => ⟨h, hf, hq⟩⟩

theorem map_applied_rewriteInputs (m : Memo σ κ) (id : ExprId) (e : MemoExpr) :
    (m.rewriteInputs id e).exprs.map MemoExpr.applied = m.exprs.map MemoExpr.applied :=
  map_modify_of_eq MemoExpr.applied (fun x => { x with inputs := (m.newKey e).inputs }) (fun _ => rfl) m.exprs id.index

theorem progress_renewed (he : m.Live id e) (q : List Merge) :
    Progress m q (m.renewed id e) q where
  find h := h
  groups hx := ⟨_, hx, rfl⟩
  exprs := by
    intro i x hx
    have hexpr := expr?_rewriteInputs m id e i
    rw [hx, Option.map_some] at hexpr
    refine ⟨_, hexpr, ?_⟩
    by_cases hi : i = id
    · subst hi
      rw [if_pos rfl, Option.some.inj (hx.symm.trans he.1)]
      exact ⟨rfl, rfl, m.map_find_map_find e.inputs⟩
    · rw [if_neg hi]
      exact ⟨rfl, rfl, rfl⟩
  slots_le := Nat.le_refl _
  contexts hc _ := hc
  winners hx _ hw := ⟨_, _, hx, hw, rfl⟩
  length_eq := rfl
  verify_eq := rfl
  producers := (Carries.refl m).producers
  limit_eq := rfl
  applied_eq := map_applied_rewriteInputs m id e
  fades :=
    { groups := fun hx hy => (Fades.refl m).groups hx hy
      exprs := fun {i x y} hx hy => by
        have hexpr := expr?_rewriteInputs m id e i
        rw [hx, Option.map_some] at hexpr
        obtain rfl := Option.some.inj (hexpr.symm.trans hy)
        split <;> exact ⟨fun h => h, fun h => h, fun h => h, rfl⟩ }
  knows_iff _ := Iff.rfl
  known h := h
  congruence_iff R := by
    have same (h : m.Settles q R) : List.Forall₂ R (e.inputs.map m.find) e.inputs :=
      h.of_map_eq (m.map_find_map_find e.inputs)
    constructor
    · intro h
      refine h.transfer ((settles_renewed_iff m id e q R).2 h.toSettles) fun {i x} hx => ?_
      rcases (live_renewed_iff he i x).1 hx with ⟨-, rfl⟩ | ⟨-, hx⟩
      · exact ⟨id, e, he, rfl, h.refl _, h.symm_all (same h.toSettles)⟩
      · exact ⟨i, x, hx, rfl, h.refl _, h.of_map_eq rfl⟩
    · intro h
      have hs := (settles_renewed_iff m id e q R).1 h.toSettles
      refine h.transfer hs fun {i x} hx => ?_
      by_cases hi : i = id
      · subst hi
        refine ⟨i, _, (live_renewed_iff he i _).2 (.inl ⟨rfl, rfl⟩), ?_⟩
        rw [hx.unique he]
        exact ⟨rfl, h.refl _, same hs⟩
      · exact ⟨i, x, (live_renewed_iff he i x).2 (.inr ⟨hi, hx⟩), rfl, h.refl _, hs.of_map_eq rfl⟩
  settles h := (settles_renewed_iff m id e q _).1 h
  represented {i y} hy := by
    by_cases hi : i = id
    · subst hi
      rw [hy.unique he]
      refine ⟨i, _, (live_renewed_iff he i _).2 (.inl ⟨rfl, rfl⟩), rfl, fun R h => ⟨h.refl _, ?_⟩⟩
      exact ((settles_renewed_iff m i e q R).1 h).of_map_eq (m.map_find_map_find e.inputs)
    · exact ⟨i, y, (live_renewed_iff he i y).2 (.inr ⟨hi, hy⟩), rfl, fun _ h => ⟨h.refl _, h.of_map_eq rfl⟩⟩

theorem settles_of_dropped {o : MemoExpr} {q : List Merge} {R : GroupId → GroupId → Prop}
    (h : (m.dropped id e).Settles (q ++ m.mergeOf e o) R) : m.Settles q R ∧ R o.group e.group := by
  have hs : m.Settles q R := ⟨h.equivalence, h.found, fun p hp => h.merged p (List.mem_append_left _ hp)⟩
  have hfind : R (m.find e.group) (m.find o.group) := by
    by_cases hg : m.find e.group = m.find o.group
    · exact hg ▸ hs.refl _
    · exact h.merged _ (List.mem_append_right _ (mem_mergeOf.2 ⟨hg, rfl⟩))
  exact ⟨hs, hs.symm (hs.trans (hs.symm (hs.find _)) (hs.trans hfind (hs.find _)))⟩

/-- The expression an expression is dropped for stands for it, once their groups are merged. -/
theorem progress_dropped (c : m.CoherentBut excused) (he : m.Live id e) {other : ExprId} {o : MemoExpr}
    (ho : m.Live other o) (hne : other ≠ id) (hk : o.key = m.newKey e) (q : List Merge) :
    Progress m q (m.dropped id e) (q ++ m.mergeOf e o) where
  find h := h
  groups := by
    intro g x hx
    have hget := groups_dropped m id e (m.find g)
    rw [show m.groups[(m.find g).index]? = some x from hx, Option.map_some] at hget
    refine ⟨_, hget, ?_⟩
    split <;> rfl
  exprs := by
    intro i x hx
    have hexpr := expr?_dropped m id e i
    rw [hx, Option.map_some] at hexpr
    refine ⟨_, hexpr, ?_⟩
    by_cases hi : i = id
    · subst hi
      rw [if_pos rfl, Option.some.inj (hx.symm.trans he.1)]
      exact ⟨rfl, rfl, m.map_find_map_find e.inputs⟩
    · rw [if_neg hi]
      exact ⟨rfl, rfl, rfl⟩
  slots_le := Nat.le_refl _
  contexts hc _ := hc
  winners := by
    intro g y hy w hw
    obtain ⟨x, hx, rfl⟩ := stores_dropped hy
    refine ⟨g, x, hx, ?_, rfl⟩
    split at hw <;> exact hw
  length_eq := rfl
  verify_eq := rfl
  producers := (Carries.refl m).producers
  limit_eq := rfl
  applied_eq := by
    refine Eq.trans ?_ (map_applied_rewriteInputs m id e)
    exact map_modify_of_eq MemoExpr.applied (fun x => { x with removed := true }) (fun _ => rfl) _ id.index
  fades :=
    { groups := fun {g x y} hx hy => by
        have hget := groups_dropped m id e (m.find g)
        rw [show m.groups[(m.find g).index]? = some x from hx, Option.map_some] at hget
        obtain rfl := Option.some.inj (hget.symm.trans hy)
        split <;> exact ⟨⟨fun h => h, fun h => h, fun h => h⟩, fun _ h => h⟩
      exprs := fun {i x y} hx hy => by
        have hexpr := expr?_dropped m id e i
        rw [hx, Option.map_some] at hexpr
        obtain rfl := Option.some.inj (hexpr.symm.trans hy)
        split <;> exact ⟨fun h => h, fun h => h, fun h => h, rfl⟩ }
  knows_iff _ := by
    simp [Knows, dropped, withdraw, modifyGroup, modifyExpr, rewriteInputs]
  known := by
    intro hq p hp
    have hknows : ∀ g, m.Knows g → (m.dropped id e).Knows g := by
      simp [Knows, dropped, withdraw, modifyGroup, modifyExpr, rewriteInputs]
    rcases List.mem_append.1 hp with hp | hp
    · exact ⟨hknows _ (hq p hp).1, hknows _ (hq p hp).2⟩
    · obtain ⟨-, rfl⟩ := mem_mergeOf.1 hp
      exact ⟨hknows _ (knows_find (c.group_known he.1)), hknows _ (knows_find (c.group_known ho.1))⟩
  congruence_iff R := by
    have hop : o.op = e.op := congrArg ExprKey.op hk
    have hinputs : o.inputs = e.inputs.map m.find := congrArg ExprKey.inputs hk
    have same (h : m.Settles q R) : List.Forall₂ R o.inputs e.inputs := by
      rw [hinputs]
      exact h.of_map_eq (m.map_find_map_find e.inputs)
    constructor
    · intro h
      have hgroups : R (m.find e.group) (m.find o.group) :=
        h.trans (h.find _) (h.trans (h.congr he ho hop.symm (h.symm_all (same h.toSettles))) (h.symm (h.find _)))
      refine h.transfer ⟨h.equivalence, h.found, fun p hp => ?_⟩ fun {i x} hx => ?_
      · rcases List.mem_append.1 hp with hp | hp
        · exact h.merged p hp
        · obtain ⟨-, rfl⟩ := mem_mergeOf.1 hp
          exact hgroups
      · exact ⟨i, x, ((live_dropped_iff m id e i x).1 hx).2, rfl, h.refl _, h.of_map_eq rfl⟩
    · intro h
      obtain ⟨hs, hgroups⟩ := settles_of_dropped h.toSettles
      refine h.transfer hs fun {i x} hx => ?_
      by_cases hi : i = id
      · subst hi
        rw [hx.unique he]
        exact ⟨other, o, (live_dropped_iff m i e other o).2 ⟨hne, ho⟩, hop, hgroups, same hs⟩
      · exact ⟨i, x, (live_dropped_iff m id e i x).2 ⟨hi, hx⟩, rfl, h.refl _, hs.of_map_eq rfl⟩
  settles h := (settles_of_dropped h).1
  represented {i y} hy := by
    by_cases hi : i = id
    · subst hi
      rw [hy.unique he]
      refine ⟨other, o, (live_dropped_iff m i e other o).2 ⟨hne, ho⟩, congrArg ExprKey.op hk, fun R h => ?_⟩
      obtain ⟨hs, hgroups⟩ := settles_of_dropped h
      refine ⟨hgroups, ?_⟩
      rw [show o.inputs = e.inputs.map m.find from congrArg ExprKey.inputs hk]
      exact hs.of_map_eq (m.map_find_map_find e.inputs)
    · exact ⟨i, y, (live_dropped_iff m id e i y).2 ⟨hi, hy⟩, rfl, fun _ h => ⟨h.refl _, h.of_map_eq rfl⟩⟩

theorem progress_redirectInputs (c : m.CoherentBut excused) (hknown : ∀ i g, excused i g → m.Knows g)
    (he : m.Live id e) (merges : List Merge) :
    ∃ n follow, redirectInputs (m, merges) id = (n, merges ++ follow) ∧
      n.CoherentBut (fun i g => i ≠ id ∧ excused i g) ∧ (∀ i x, i ≠ id → m.Live i x → n.Live i x) ∧
      ∀ q, Progress m q n (q ++ follow) := by
  rcases redirectInputs_cases c he merges with ⟨hnew, heq⟩ | ⟨other, o, ho, hne, hk, heq⟩
  · refine ⟨m.renewed id e, [], ?_, coherent_renewed c hknown he hnew, ?_, ?_⟩
    · rw [heq, List.append_nil]
    · exact fun i x hi hx => (live_renewed_iff he i x).2 (.inr ⟨hi, hx⟩)
    · intro q
      rw [List.append_nil]
      exact progress_renewed he q
  · refine ⟨m.dropped id e, m.mergeOf e o, heq, coherent_dropped c he, ?_, ?_⟩
    · exact fun i x hi hx => (live_dropped_iff m id e i x).2 ⟨hi, hx⟩
    · exact progress_dropped c he ho hne hk

theorem progress_redirectAll {dissolved : GroupId} (ids : List ExprId) {m : Memo σ κ} (hnodup : ids.Nodup)
    (c : m.CoherentBut (fun i g => g = dissolved ∧ i ∈ ids)) (hknown : m.Knows dissolved)
    (hlive : ∀ id ∈ ids, ∃ e, m.Live id e) (merges : List Merge) :
    ∃ n follow, ids.foldl redirectInputs (m, merges) = (n, merges ++ follow) ∧ n.Coherent ∧
      ∀ q, Progress m q n (q ++ follow) := by
  induction ids generalizing m merges with
  | nil =>
    refine ⟨m, [], by rw [List.append_nil]; rfl, c.mono fun _ _ h => absurd h.2 List.not_mem_nil, fun q => ?_⟩
    rw [List.append_nil]
    exact .refl m q
  | cons id ids ih =>
    obtain ⟨hid, hids⟩ := List.nodup_cons.1 hnodup
    obtain ⟨e, he⟩ := hlive id (List.mem_cons_self ..)
    obtain ⟨n, follow, heq, cn, hkeep, hn⟩ :=
      progress_redirectInputs c (fun _ _ h => h.1 ▸ hknown) he merges
    have cn : n.CoherentBut (fun i g => g = dissolved ∧ i ∈ ids) :=
      cn.mono fun i g h => ⟨h.2.1, (List.mem_cons.1 h.2.2).resolve_left h.1⟩
    have hlive : ∀ k ∈ ids, ∃ x, n.Live k x := by
      intro k hk
      obtain ⟨x, hx⟩ := hlive k (List.mem_cons_of_mem _ hk)
      exact ⟨x, hkeep k x (fun h => hid (h ▸ hk)) hx⟩
    obtain ⟨o, follow', heq', co, ho⟩ := ih hids cn (((hn []).knows_iff _).2 hknown) hlive (merges ++ follow)
    refine ⟨o, follow ++ follow', ?_, co, fun q => ?_⟩
    · rw [List.foldl_cons, heq, heq', List.append_assoc]
    · rw [← List.append_assoc]
      exact (hn q).trans (ho (q ++ follow))

end Redirect

section Linked

variable {m : Memo σ κ} {survivor dissolved : GroupId} {content : Group σ}
  {f : Lookup Required ContextId → Lookup Required ContextId} {c : ContextStore κ}

/-- What a group took over is part of what the memo knows. -/
theorem inherits_linked (h : m.Mergeable survivor dissolved content) (hc : m.Coherent)
    (hlogical : ∀ x, m.Stores survivor x → x.logical = content.logical)
    (hf : ∀ l, ∀ r ∈ (f l).rows, r ∈ l.rows ∨ r ∈ content.winners.rows) (hctx : m.contexts.PrunedTo c) :
    Inherits m (m.linkedMemo survivor dissolved (Nat.le_of_lt h.lt) content f c) where
  find hgh := by
    rw [find_linked h hc.links_size, find_linked h hc.links_size, hgh]
  groups := by
    intro g x hx
    have hlen : (m.linkedMemo survivor dissolved (Nat.le_of_lt h.lt) content f c).groups.length = m.groups.length := by
      simp [linkedMemo]
    have hknown : m.Knows (relink survivor dissolved (m.find g)) := by
      unfold relink
      split
      · exact h.survivor_survives.1
      · exact knows_of_content hx
    obtain ⟨y, hy⟩ := exists_content (m := m.linkedMemo survivor dissolved (Nat.le_of_lt h.lt) content f c)
      (g := relink survivor dissolved (m.find g)) (by unfold Knows; rw [hlen]; exact hknown)
    refine ⟨y, ?_, ?_⟩
    · unfold group?
      rw [find_linked h hc.links_size]
      exact hy
    · obtain ⟨x', hx', hlog, -⟩ := stores_linked hy
      rw [hlog]
      unfold relink at hx'
      split at hx'
      · rename_i hd
        have hx : m.Stores dissolved x := hd ▸ hx
        rw [hlogical x' hx', Option.some.inj (hx.symm.trans h.stores)]
      · rw [Option.some.inj (hx'.symm.trans hx)]
  exprs := by
    intro id e he
    have hexpr : (m.linkedMemo survivor dissolved (Nat.le_of_lt h.lt) content f c).expr? id = _ := expr?_linked m _ id
    rw [he, Option.map_some] at hexpr
    refine ⟨_, hexpr, ?_, ?_, ?_⟩
    · split <;> rfl
    · rw [find_group_linked h hc he, find_linked h hc.links_size]
    · split <;> rfl
  slots_le := Nat.le_of_eq hctx.length_eq.symm
  contexts hget _ := hctx.get hget
  winners := by
    intro g y hy w hw
    have hjoin : (m.linkedMemo survivor dissolved (Nat.le_of_lt h.lt) content f c).find dissolved = survivor := by
      rw [find_linked h hc.links_size, h.dissolved_survives.2]
      simp [relink]
    obtain ⟨x, hx, -, ⟨-, -, hrows⟩ | ⟨hd, rfl, -, hwin⟩ | ⟨-, -, rfl⟩⟩ := stores_linked hy
    · rw [hrows] at hw
      cases hw
    · rw [hwin] at hw
      rcases hf _ w hw with hw | hw
      · exact ⟨g, x, hx, hw, rfl⟩
      · refine ⟨dissolved, content, h.stores, hw, ?_⟩
        rw [hjoin, ((survives_linked_iff h hc.links_size g).2 ⟨h.survivor_survives, hd⟩).2]
    · exact ⟨g, y, hx, hw, rfl⟩
  length_eq := hctx.length_eq

/-- A group that takes over another one has the marks that both have, and winners where one of them has them. -/
theorem fades_linked (h : m.Mergeable survivor dissolved content) (hc : m.Coherent)
    (hkeep : ∀ x, m.Stores survivor x → ∀ r, x.winners.contains r = true ∨ content.winners.contains r = true →
      (f x.winners).contains r = true) :
    Fades m (m.linkedMemo survivor dissolved (Nat.le_of_lt h.lt) content f c) where
  groups := by
    intro g x y hx hy
    have hy : (m.linkedMemo survivor dissolved (Nat.le_of_lt h.lt) content f c).Stores (relink survivor dissolved (m.find g)) y := by
      rw [← find_linked h hc.links_size]
      exact hy
    have hmarks : ∀ z : Group σ, (absorb content z).Marks z ∧ (absorb content z).Marks content := fun z =>
      ⟨⟨fun hm => (Bool.and_eq_true_iff.1 hm).1, fun hm => (Bool.and_eq_true_iff.1 hm).1, fun hm => (List.mem_filter.1 hm).1⟩,
        ⟨fun hm => (Bool.and_eq_true_iff.1 hm).2, fun hm => (Bool.and_eq_true_iff.1 hm).2,
          fun hm => of_decide_eq_true (List.mem_filter.1 hm).2⟩⟩
    by_cases hjoined : relink survivor dissolved (m.find g) = survivor
    · rw [hjoined] at hy
      obtain ⟨z, hz, rfl⟩ := stores_survivor h.ne hy
      obtain ⟨hzm, hcm⟩ := hmarks z
      unfold relink at hjoined
      split at hjoined
      · rename_i hd
        have hx : m.Stores dissolved x := hd ▸ hx
        obtain rfl := Option.some.inj (hx.symm.trans h.stores)
        exact ⟨⟨hcm.explored, hcm.implemented, hcm.optimized⟩, fun r hr => hkeep z hz r (.inr hr)⟩
      · have hx : m.Stores survivor x := hjoined ▸ hx
        obtain rfl := Option.some.inj (hx.symm.trans hz)
        exact ⟨⟨hzm.explored, hzm.implemented, hzm.optimized⟩, fun r hr => hkeep x hx r (.inl hr)⟩
    · obtain ⟨z, hz, -, ⟨hd, -⟩ | ⟨-, hs, -⟩ | ⟨-, -, rfl⟩⟩ := stores_linked hy
      · exact absurd hd (relink_ne_dissolved h _)
      · exact absurd hs hjoined
      · unfold relink at hz hjoined
        split at hz
        · rename_i hd
          rw [if_pos hd] at hjoined
          exact absurd rfl hjoined
        · exact (Fades.refl m).groups hx hz
  exprs := by
    intro id e y he hy
    have hexpr : (m.linkedMemo survivor dissolved (Nat.le_of_lt h.lt) content f c).expr? id = _ := expr?_linked m _ id
    rw [he, Option.map_some] at hexpr
    obtain rfl := Option.some.inj (hexpr.symm.trans hy)
    split <;> exact ⟨fun h => h, fun h => h, fun h => h, rfl⟩

theorem same_linked (h : m.Mergeable survivor dissolved content) (hc : m.Coherent) {l r : GroupId}
    (hlr : (m.find l = survivor ∧ m.find r = dissolved) ∨ (m.find l = dissolved ∧ m.find r = survivor)) :
    (m.linkedMemo survivor dissolved (Nat.le_of_lt h.lt) content f c).find l =
      (m.linkedMemo survivor dissolved (Nat.le_of_lt h.lt) content f c).find r := by
  rw [find_linked h hc.links_size, find_linked h hc.links_size]
  rcases hlr with ⟨hl, hr⟩ | ⟨hl, hr⟩ <;> simp [hl, hr, relink]

theorem settles_of_linked (h : m.Mergeable survivor dissolved content) (hc : m.Coherent) {l r : GroupId}
    (hlr : (m.find l = survivor ∧ m.find r = dissolved) ∨ (m.find l = dissolved ∧ m.find r = survivor))
    {rest : List Merge} {R : GroupId → GroupId → Prop}
    (hR : (m.linkedMemo survivor dissolved (Nat.le_of_lt h.lt) content f c).Settles rest R) :
    m.Settles ((l, r) :: rest) R := by
  refine ⟨hR.equivalence, fun {a b} hab => hR.found ?_, fun p hp => ?_⟩
  · rw [find_linked h hc.links_size, find_linked h hc.links_size, hab]
  · rcases List.mem_cons.1 hp with rfl | hp
    · exact hR.found (same_linked h hc hlr)
    · exact hR.merged p hp

theorem progress_linked (h : m.Mergeable survivor dissolved content) (hc : m.Coherent)
    (hlogical : ∀ x, m.Stores survivor x → x.logical = content.logical)
    (hf : ∀ l, ∀ r ∈ (f l).rows, r ∈ l.rows ∨ r ∈ content.winners.rows)
    (hkeep : ∀ x, m.Stores survivor x → ∀ r, x.winners.contains r = true ∨ content.winners.contains r = true →
      (f x.winners).contains r = true) (hctx : m.contexts.PrunedTo c) {l r : GroupId} (hlr : (m.find l = survivor ∧ m.find r = dissolved) ∨ (m.find l = dissolved ∧ m.find r = survivor))
    (rest : List Merge) :
    Progress m ((l, r) :: rest) (m.linkedMemo survivor dissolved (Nat.le_of_lt h.lt) content f c) rest where
  toInherits := inherits_linked h hc hlogical hf hctx
  verify_eq := rfl
  producers := by
    intro cte g hg
    obtain ⟨k, hk, rfl⟩ := Option.map_eq_some_iff.1 hg
    unfold cteProducer?
    rw [find_linked h hc.links_size, m.find_find, (hc.producers_survive hk).2]
    change ((m.cteProducers.mapValues (relink survivor dissolved)).get? cte).map _ = _
    rw [Lookup.get?_mapValues, hk, Option.map_some, Option.map_some, find_linked h hc.links_size]
    congr 1
    unfold relink
    split
    · rw [h.survivor_survives.2, if_neg h.ne]
    · rename_i hd
      rw [(hc.producers_survive hk).2, if_neg hd]
  limit_eq := rfl
  applied_eq := map_applied_regroup survivor content.members m.exprs
  fades := fades_linked h hc hkeep
  knows_iff _ := by simp [Knows, linkedMemo]
  known := by
    intro hq p hp
    simpa [Knows, linkedMemo] using hq p (List.mem_cons_of_mem _ hp)
  congruence_iff R := by
    constructor
    · intro hR
      have hpair : R survivor dissolved := by
        have hl := hR.find l
        have hr := hR.find r
        have hm : R l r := hR.merged (l, r) (List.mem_cons_self ..)
        rcases hlr with ⟨hl', hr'⟩ | ⟨hl', hr'⟩
        · exact hl' ▸ hr' ▸ hR.trans hl (hR.trans hm (hR.symm hr))
        · exact hl' ▸ hr' ▸ hR.trans hr (hR.trans (hR.symm hm) (hR.symm hl))
      have hrelink : ∀ g, R (relink survivor dissolved (m.find g)) g := by
        intro g
        unfold relink
        split
        · rename_i hd
          exact hR.trans hpair (hd ▸ hR.find g)
        · exact hR.find g
      have hs : (m.linkedMemo survivor dissolved (Nat.le_of_lt h.lt) content f c).Settles rest R := by
        refine ⟨hR.equivalence, fun {a b} hab => ?_, fun p hp => hR.merged p (List.mem_cons_of_mem _ hp)⟩
        rw [find_linked h hc.links_size, find_linked h hc.links_size] at hab
        exact hR.trans (hR.symm (hrelink a)) (hab ▸ hrelink b)
      refine hR.transfer hs fun {i x} hx => ?_
      obtain ⟨y, hy, hgroup, hop, hinputs⟩ := (live_linked h hc i
        (fun g op inputs => g = (m.linkedMemo survivor dissolved (Nat.le_of_lt h.lt) content f c).find x.group ∧
          op = x.op ∧ inputs = x.inputs)).1 ⟨x, hx, rfl, rfl, rfl⟩
      refine ⟨i, y, hy, hop, ?_, hR.of_map_eq (congrArg _ hinputs)⟩
      exact hR.trans (hR.symm (hrelink y.group)) (hgroup ▸ hs.find x.group)
    · intro hR
      have hs := settles_of_linked h hc hlr hR.toSettles
      refine hR.transfer hs fun {i x} hx => ?_
      obtain ⟨y, hy, hgroup, hop, hinputs⟩ := (live_linked h hc i
        (fun g op inputs => g = relink survivor dissolved (m.find x.group) ∧ op = x.op ∧ inputs = x.inputs)).2
          ⟨x, hx, rfl, rfl, rfl⟩
      refine ⟨i, y, hy, hop, hR.found ?_, hs.of_map_eq (congrArg _ hinputs)⟩
      rw [hgroup, find_linked h hc.links_size]
  settles hR := settles_of_linked h hc hlr hR
  represented {i y} hy := by
    obtain ⟨x, hx, hgroup, hop, hinputs⟩ := (live_linked h hc i (fun g op inputs =>
      g = relink survivor dissolved (m.find y.group) ∧ op = y.op ∧ inputs = y.inputs)).2 ⟨y, hy, rfl, rfl, rfl⟩
    refine ⟨i, x, hx, hop, fun R hR => ⟨hR.found ?_, hR.of_map_eq (congrArg _ hinputs)⟩⟩
    rw [hgroup, find_linked h hc.links_size]

end Linked

end Cascade.Memo
