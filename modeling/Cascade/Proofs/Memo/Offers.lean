import Cascade.Proofs.Memo.Leading

/-!
Offers. A context is offered by adding it to a memo with success. After any operations that take back no pin
that was not made, a group has a winner just if a context was offered for it, and then one that no offer for it
beats (`winner_best`).
-/

namespace Cascade.Memo

variable {σ κ : Type}

/-- A context with a requirement, for an expression whose group is the same as a group. -/
def IsFor (m : Memo σ κ) (g : GroupId) (r : Required) (c : CostContext κ) : Prop :=
  c.required = r ∧ ∃ e, m.expr? c.expr = some e ∧ m.find e.group = m.find g

theorem IsFor.extends {m n : Memo σ κ} (h : Extends m n) {g : GroupId} {r : Required} {c : CostContext κ}
    (hc : m.IsFor g r c) : n.IsFor g r c := by
  obtain ⟨hr, e, he, hg⟩ := hc
  obtain ⟨f, hf, -, hfe, -⟩ := h.exprs he
  exact ⟨hr, f, hf, hfe.trans (h.find hg)⟩

section

variable {m : Memo σ κ} {others : ContextId → Nat} {c : CostContext κ}

/-- Of all leaders only the one an accepted offer replaces is another one. -/
theorem leader?_promoted {g : GroupId} {s : ContextStore κ} (hm : m.Counted others) (hx : ∃ x, m.Stores g x)
    (hs : (m.contexts.add c).2.PrunedTo s) (hn : (m.promoted g c s).Counted others) (k : GroupId) (q : Required) :
    (m.promoted g c s).leader? k q = if k = g ∧ q = c.required then some c else m.leader? k q := by
  obtain ⟨x, hx⟩ := hx
  have hnew : (m.contexts.add c).1.index = m.contexts.slots.length := rfl
  have hnamed : (m.promoted g c s).named? k q =
      if k = g ∧ q = c.required then some (m.contexts.add c).1 else m.named? k q :=
    named?_install (m := { m with contexts := s }) hx c.required _ k q
  unfold leader?
  split at hnamed
  · rename_i hkq
    obtain ⟨w, hw⟩ := hn.exists_named hnamed
    rw [hnamed, if_pos hkq, Option.bind_some, hw]
    rcases ContextStore.get_add (hs.get ((ContextStore.get_ok_iff _ _ _).2 hw)) with hold | ⟨-, rfl⟩
    · exact absurd (ContextStore.lt_of_get_ok hold) (hnew ▸ Nat.lt_irrefl _)
    · rfl
  · rename_i hkq
    rw [hnamed, if_neg hkq]
    cases hid : m.named? k q with
    | none => rfl
    | some id =>
      obtain ⟨w, hw⟩ := hm.exists_named hid
      obtain ⟨v, hv⟩ := hn.exists_named (hnamed.trans hid)
      have hlt := ContextStore.lt_of_get_ok ((ContextStore.get_ok_iff _ _ _).2 hw)
      rcases ContextStore.get_add (hs.get ((ContextStore.get_ok_iff _ _ _).2 hv)) with hold | ⟨rfl, -⟩
      · exact hv.trans ((ContextStore.get_ok_iff _ _ _).1 hold).symm
      · exact absurd hlt (hnew ▸ Nat.lt_irrefl _)

end

theorem winner?_resetSearch (m : Memo σ κ) (g : GroupId) (r : Required) :
    m.resetSearch.winner? g r = m.winner? g r := by
  have hgroup : m.resetSearch.group? g =
      (m.group? g).map (fun x => { x with explored := false, implemented := false, optimized := [] }) :=
    List.getElem?_map
  unfold winner?
  rw [hgroup]
  cases m.group? g <;> rfl

section

variable [LinearOrder κ]

/-- The contexts an operation offers: one or none. -/
def offered (m : Memo σ κ) : Operation σ κ → List (CostContext κ)
  | .addContext c => if (m.addContext c).isOk then [c] else []
  | _ => []

/-- The contexts that operations offer one after the other. -/
def offers (m : Memo σ κ) : List (Operation σ κ) → List (CostContext κ)
  | [] => []
  | op :: ops => m.offered op ++ (m.apply op).offers ops

/-- The winners of a memo are the best of the contexts that were offered to it. -/
structure Won (m : Memo σ κ) (offers : List (CostContext κ)) : Prop where
  known : ∀ c ∈ offers, ∃ e, m.expr? c.expr = some e
  offered : ∀ {g x}, m.Stores g x → ∀ row ∈ x.winners.rows, ∀ w, m.contexts.get row.2 = .ok w →
    w ∈ offers ∧ m.IsFor g row.1 w
  best : ∀ {g r c}, c ∈ offers → m.IsFor g r c → ∃ w, m.leader? (m.find g) r = some w ∧ c.isBetterThan w = false
  first : ∀ {g r w}, m.Alone g → m.leader? g r = some w →
    ∃ before after, offers = before ++ w :: after ∧ ∀ c ∈ before, m.IsFor g r c → w.isBetterThan c = true

theorem won_empty (verify : Bool) (limit : Option Nat) : (empty verify limit : Memo σ κ).Won [] where
  known c hc := by cases hc
  offered h := absurd h not_stores_empty
  best hc := by cases hc
  first _ h := by cases h

section

variable {m n : Memo σ κ} {others : ContextId → Nat} {c : CostContext κ} {r : Option ContextId}

/-- An offer is refused because of a leader it does not beat, or it beats the leader if there is one. -/
theorem addContext_decides (h : m.addContext c = .ok (r, n)) : ∃ e, m.expr? c.expr = some e ∧
    ((∃ w, m.leader? (m.find e.group) c.required = some w ∧ c.isBetterThan w = false) ∧
        n = { m with contexts := m.contexts.discard } ∨
      (∀ w, m.leader? (m.find e.group) c.required = some w → c.isBetterThan w = true) ∧
        ∃ s, (m.contexts.add c).2.PrunedTo s ∧ n = m.promoted (m.find e.group) c s) := by
  obtain ⟨e, he, h⟩ := exists_of_bind_ok h
  refine ⟨e, checkContext_ok he, ?_⟩
  have hleader := m.map_winner? (m.find e.group) c.required
  rw [m.find_find] at hleader
  dsimp only at h
  split at h
  · rename_i hany
    cases h
    obtain ⟨w, hw, hbetter⟩ := (Option.any_eq_true _ _).1 hany
    rw [hw] at hleader
    exact .inl ⟨⟨w.2, hleader.symm, by simpa using hbetter⟩, rfl⟩
  · rename_i hany
    refine .inr ⟨fun w hw => ?_, ?_⟩
    · rw [hw] at hleader
      obtain ⟨v, hv, rfl⟩ := Option.map_eq_some_iff.1 hleader
      simpa [hv] using hany
    · split at h
      · rename_i p _
        cases h
        exact ⟨_, (m.contexts.add c).2.prunedTo_release p, rfl⟩
      · cases h
        exact ⟨_, .refl _, rfl⟩

end

namespace Won

variable {m n : Memo σ κ} {offers : List (CostContext κ)} {others : ContextId → Nat} {pins : List ContextId}

theorem exists_offer (h : m.Won offers) {g : GroupId} {r : Required} {w : CostContext κ}
    (hw : m.leader? g r = some w) : w ∈ offers ∧ m.IsFor g r w := by
  obtain ⟨id, hid, hw⟩ := Option.bind_eq_some_iff.1 hw
  obtain ⟨x, hx, hid⟩ := Option.bind_eq_some_iff.1 hid
  exact h.offered hx (r, id) (Lookup.mem_rows_of_get? hid) w ((ContextStore.get_ok_iff _ _ _).2 hw)

theorem advances (h : m.Won offers) (k : Advances m n) : n.Won offers where
  known c hc := by
    obtain ⟨e, he⟩ := h.known c hc
    obtain ⟨f, hf, -⟩ := k.exprs he
    exact ⟨f, hf⟩
  offered := by
    intro g y hy row hrow w hw
    obtain ⟨i, x, hx, hrow, hig⟩ := k.winners hy row hrow
    have hlt : row.2.index < m.contexts.slots.length := k.length_eq ▸ ContextStore.lt_of_get_ok hw
    obtain ⟨hmem, hfor⟩ := h.offered hx row hrow w (k.contexts hw hlt)
    obtain ⟨hr, f, hf, hfi⟩ := hfor.extends k.toExtends
    exact ⟨hmem, hr, f, hf, hfi.trans hig⟩
  best := by
    intro g r c hc hfor
    obtain ⟨hr, f, hf, hfg⟩ := hfor
    obtain ⟨e, he⟩ := h.known c hc
    obtain ⟨f', hf', -, hfe, -⟩ := k.exprs he
    cases hf.symm.trans hf'
    obtain ⟨w, hw, hcw⟩ := h.best hc ⟨hr, e, he, rfl⟩
    obtain ⟨v, hv, hwv⟩ := k.improves hw
    exact ⟨v, by rw [← hfg, hfe]; exact hv, CostContext.not_isBetterThan_trans hcw hwv⟩
  first := by
    intro g r w hg hw
    rw [k.undisturbed hg] at hw
    obtain ⟨before, after, heq, hbefore⟩ := h.first (hg.of_extends k.toExtends) hw
    refine ⟨before, after, heq, fun c hc hfor => hbefore c hc ?_⟩
    -- what is for a group that stands alone was for it all along
    obtain ⟨hr, f, hf, hfg⟩ := hfor
    obtain ⟨e, he⟩ := h.known c (heq ▸ List.mem_append_left _ hc)
    obtain ⟨f', hf', -, hfe, -⟩ := k.exprs he
    cases hf.symm.trans hf'
    exact ⟨hr, e, he, by rw [hg e.group (hfe.symm.trans hfg)]⟩


/-- An offer that is refused is not better than a leader there is. -/
theorem refused (h : m.Won offers) {c : CostContext κ} {e : MemoExpr} (he : m.expr? c.expr = some e)
    (hleader : ∃ w, m.leader? (m.find e.group) c.required = some w ∧ c.isBetterThan w = false) :
    m.Won (offers ++ [c]) where
  known d hd := by
    rcases List.mem_append.1 hd with hd | hd
    · exact h.known d hd
    · exact ⟨e, List.mem_singleton.1 hd ▸ he⟩
  offered hx row hrow w hw := (h.offered hx row hrow w hw).imp_left (List.mem_append_left _)
  best := by
    intro g r d hd hfor
    rcases List.mem_append.1 hd with hd | hd
    · exact h.best hd hfor
    · cases List.mem_singleton.1 hd
      obtain ⟨rfl, f, hf, hfg⟩ := hfor
      cases he.symm.trans hf
      exact hfg ▸ hleader
  first hg hw := by
    obtain ⟨before, after, heq, hbefore⟩ := h.first hg hw
    exact ⟨before, after ++ [c], by rw [heq]; simp, hbefore⟩

/-- An offer that beats the leader takes its place. -/
theorem accepted (h : m.Won offers) (hm : m.Counted others) {c : CostContext κ} {e : MemoExpr}
    (he : m.expr? c.expr = some e) (hx : ∃ x, m.Stores (m.find e.group) x)
    (hleader : ∀ w, m.leader? (m.find e.group) c.required = some w → c.isBetterThan w = true)
    {s : ContextStore κ} (hs : (m.contexts.add c).2.PrunedTo s)
    (hn : (m.promoted (m.find e.group) c s).Counted others) :
    (m.promoted (m.find e.group) c s).Won (offers ++ [c]) := by
  have hextends : Extends m (m.promoted (m.find e.group) c s) := extends_promoted hs
  have hpromoted := leader?_promoted hm hx hs hn
  -- what did not beat the leader before does not beat the new one
  have hbest : ∀ d ∈ offers, m.IsFor e.group c.required d → c.isBetterThan d = true := by
    intro d hd hfor
    obtain ⟨w, hw, hdw⟩ := h.best hd hfor
    exact CostContext.isBetterThan_of_not (hleader w hw) hdw
  refine { known := ?_, offered := ?_, best := ?_, first := ?_ }
  · intro d hd
    rcases List.mem_append.1 hd with hd | hd
    · exact h.known d hd
    · exact ⟨e, List.mem_singleton.1 hd ▸ he⟩
  · intro g y hy row hrow w hw
    have hold : ∀ {x}, m.Stores g x → row ∈ x.winners.rows →
        w ∈ offers ++ [c] ∧ (m.promoted (m.find e.group) c s).IsFor g row.1 w := by
      intro x hx hrow
      obtain ⟨v, hv⟩ := hm.exists_winner hx hrow
      have hlt := ContextStore.lt_of_get_ok ((ContextStore.get_ok_iff _ _ _).2 hv)
      rcases ContextStore.get_add (hs.get hw) with hget | ⟨hid, -⟩
      · exact (h.offered hx row hrow w hget).imp (List.mem_append_left _) fun hfor => hfor.extends hextends
      · exact absurd (hid ▸ hlt) (Nat.lt_irrefl _)
    obtain ⟨x, hx, rfl | ⟨rfl, rfl⟩⟩ := stores_promoted hy
    · exact hold hx hrow
    · rcases Lookup.mem_rows_set hrow with rfl | hrow
      · have hwc : w = c := by
          rcases ContextStore.get_add (hs.get hw) with hget | ⟨-, hwc⟩
          · exact absurd (ContextStore.lt_of_get_ok hget) (Nat.lt_irrefl _)
          · exact hwc
        subst hwc
        exact ⟨List.mem_append_right _ (List.mem_singleton_self _), rfl, e, he, (m.find_find e.group).symm⟩
      · exact hold hx hrow
  · intro g r d hd hfor
    have hfor : m.IsFor g r d := hfor
    rw [show (m.promoted (m.find e.group) c s).find g = m.find g from rfl, hpromoted]
    by_cases hgr : m.find g = m.find e.group ∧ r = c.required
    · rw [if_pos hgr]
      refine ⟨c, rfl, ?_⟩
      rcases List.mem_append.1 hd with hd | hd
      · obtain ⟨hr, f, hf, hfg⟩ := hfor
        exact CostContext.not_isBetterThan_of (hbest d hd ⟨hr.trans hgr.2, f, hf, hfg.trans hgr.1⟩)
      · rw [List.mem_singleton.1 hd]
        exact c.not_isBetterThan_self
    · rw [if_neg hgr]
      rcases List.mem_append.1 hd with hd | hd
      · exact h.best hd hfor
      · cases List.mem_singleton.1 hd
        obtain ⟨rfl, f, hf, hfg⟩ := hfor
        cases he.symm.trans hf
        exact absurd ⟨hfg.symm, rfl⟩ hgr
  · intro g r w hg hw
    have hg : m.Alone g := hg
    rw [hpromoted] at hw
    by_cases hgr : g = m.find e.group ∧ r = c.required
    · obtain ⟨hge, rfl⟩ := hgr
      rw [if_pos ⟨hge, rfl⟩] at hw
      cases hw
      refine ⟨offers, [], rfl, fun d hd hfor => hbest d hd ?_⟩
      obtain ⟨hr, f, hf, hfg⟩ := hfor
      exact ⟨hr, f, hf, hfg.trans (hge ▸ m.find_find e.group)⟩
    · rw [if_neg hgr] at hw
      obtain ⟨before, after, heq, hbefore⟩ := h.first hg hw
      exact ⟨before, after ++ [c], by rw [heq]; simp, hbefore⟩

theorem addContext (h : m.Won offers) (hm : m.Retained pins) {c : CostContext κ} {r : Option ContextId}
    (hadd : m.addContext c = .ok (r, n)) : n.Won (offers ++ [c]) := by
  obtain ⟨e, he, ⟨hleader, rfl⟩ | ⟨hleader, s, hs, rfl⟩⟩ := addContext_decides hadd
  · have hdiscard : Advances m { m with contexts := m.contexts.discard } :=
      (inherits_contexts m m.contexts.prunedTo_discard).advances fun _ _ => rfl
    exact (h.refused he hleader).advances hdiscard
  · exact h.accepted hm.counted he (exists_content (knows_find (hm.wellFormed.coherent.group_known he))) hleader hs
      (hm.addContext hadd).counted

/-- An operation adds what it offers to the contexts that the winners are the best of. -/
theorem apply (h : m.Won offers) (hm : m.Retained pins) (op : Operation σ κ) (hmatched : IsMatched pins op) :
    (m.apply op).Won (offers ++ m.offered op) := by
  have quiet (hop : m.offered op = []) (k : Advances m (m.apply op)) : (m.apply op).Won (offers ++ m.offered op) := by
    rw [hop, List.append_nil]
    exact h.advances k
  have hcounted := (hm.apply op hmatched).counted
  have unseen (hop : m.offered op = []) (k : Inherits m (m.apply op)) (hfind : ∀ g, (m.apply op).find g = m.find g)
      (hw : (m.apply op).groups.map Group.winners = m.groups.map Group.winners)
      (hc : m.contexts.PrunedTo (m.apply op).contexts) : (m.apply op).Won (offers ++ m.offered op) :=
    quiet hop (k.advances_of_winners hcounted hfind hw hc)
  cases op with
  | insert source e => exact quiet rfl (advances_insertAt source e hm.wellFormed m.target_none hm.counted)
  | insertInto source g e => exact quiet rfl (advances_insertAt source e hm.wellFormed (m.target_find g) hm.counted)
  | addContext c =>
    show (m.settled ((m.addContext c).map Prod.snd)).Won (offers ++ if (m.addContext c).isOk then [c] else [])
    cases hadd : m.addContext c with
    | error err => exact (List.append_nil offers).symm ▸ h
    | ok r => exact h.addContext hm hadd
  | pin id =>
    have hcounted : (m.settled (m.pin id)).Counted _ := hcounted
    refine quiet rfl ?_
    show Advances m (m.settled (m.pin id))
    cases hpin : m.pin id with
    | error err => exact .refl m
    | ok n =>
      rw [hpin] at hcounted
      obtain ⟨c, -, hok⟩ := exists_of_bind_ok hpin
      cases hok
      exact (inherits_pin hpin).advances_of_winners hcounted (fun _ => rfl) rfl (m.contexts.prunedTo_retain id)
  | unpin id => exact unseen rfl (m.inherits_unpin id) (fun _ => rfl) rfl (m.contexts.prunedTo_release id)
  | markApplied e r => exact unseen rfl (m.inherits_modifyExpr e fun _ => rfl) (fun _ => rfl) rfl (.refl _)
  | markExprExplored e => exact unseen rfl (m.inherits_modifyExpr e fun _ => rfl) (fun _ => rfl) rfl (.refl _)
  | markExprImplemented e => exact unseen rfl (m.inherits_modifyExpr e fun _ => rfl) (fun _ => rfl) rfl (.refl _)
  | markExprOptimized e r => exact unseen rfl (m.inherits_modifyExpr e fun _ => rfl) (fun _ => rfl) rfl (.refl _)
  | markGroupExplored g =>
    exact unseen rfl (m.inherits_modifyGroup _ (fun _ => rfl) fun _ => rfl) (fun _ => rfl)
      (m.winners_modifyGroup _ fun _ => rfl) (.refl _)
  | markGroupImplemented g =>
    exact unseen rfl (m.inherits_modifyGroup _ (fun _ => rfl) fun _ => rfl) (fun _ => rfl)
      (m.winners_modifyGroup _ fun _ => rfl) (.refl _)
  | markGroupOptimized g r =>
    exact unseen rfl (m.inherits_modifyGroup _ (fun _ => rfl) fun _ => rfl) (fun _ => rfl)
      (m.winners_modifyGroup _ fun _ => rfl) (.refl _)
  | resetSearch => exact unseen rfl m.inherits_resetSearch (fun _ => rfl) (by simp [Memo.apply, Memo.resetSearch]) (.refl _)

theorem applyAll (h : m.Won offers) (hm : m.Retained pins) (ops : List (Operation σ κ)) (hmatched : m.Matched pins ops) :
    (ops.foldl Memo.apply m).Won (offers ++ m.offers ops) := by
  induction ops generalizing m pins offers with
  | nil => exact (List.append_nil offers).symm ▸ h
  | cons op ops ih =>
    have hrest := ih (h.apply hm op hmatched.1) (hm.apply op hmatched.1) hmatched.2
    rwa [List.append_assoc] at hrest

end Won

/-- After any operations that take back no pin that is not outstanding, a group has a winner for a requirement
just if a context with that requirement was offered for an expression of what is now the same group. The winner
is one of these contexts, and none of them has a higher rank, or the same rank and a lower cost. In a group that
was merged with no other one it is the first of the best. A reset of the search changes no winner. -/
theorem winner_best (verify : Bool) (limit : Option Nat) (ops : List (Operation σ κ))
    (h : (empty verify limit : Memo σ κ).Matched [] ops) (g : GroupId) (r : Required) :
    (((runAll verify limit ops).winner? g r).isSome = true ↔
      ∃ c ∈ (empty verify limit).offers ops, (runAll verify limit ops).IsFor g r c) ∧
    (∀ id w, (runAll verify limit ops).winner? g r = some (id, w) →
      (w ∈ (empty verify limit).offers ops ∧ (runAll verify limit ops).IsFor g r w) ∧
      (∀ c ∈ (empty verify limit).offers ops, (runAll verify limit ops).IsFor g r c →
        ¬ (w.rank < c.rank ∨ c.rank = w.rank ∧ c.cost < w.cost)) ∧
      ((runAll verify limit ops).Alone g →
        ∃ before after, (empty verify limit).offers ops = before ++ w :: after ∧
          ∀ c ∈ before, (runAll verify limit ops).IsFor g r c → c.rank < w.rank ∨ w.rank = c.rank ∧ w.cost < c.cost)) ∧
    (runAll verify limit ops).resetSearch.winner? g r = (runAll verify limit ops).winner? g r := by
  have hwon : (runAll verify limit ops).Won ((empty verify limit).offers ops) :=
    (won_empty verify limit).applyAll (retained_empty verify limit) ops h
  generalize runAll verify limit ops = m at hwon
  generalize (empty verify limit : Memo σ κ).offers ops = offers at hwon
  have hleader := m.map_winner? g r
  refine ⟨⟨fun hsome => ?_, fun ⟨c, hc, hfor⟩ => ?_⟩, fun id w hw => ?_, m.winner?_resetSearch g r⟩
  · obtain ⟨w, hw⟩ := Option.isSome_iff_exists.1 hsome
    rw [hw] at hleader
    obtain ⟨hmem, hr, e, he, heg⟩ := hwon.exists_offer hleader.symm
    exact ⟨w.2, hmem, hr, e, he, heg.trans (m.find_find g)⟩
  · obtain ⟨w, hw, -⟩ := hwon.best hc hfor
    rw [hw] at hleader
    obtain ⟨v, hv, -⟩ := Option.map_eq_some_iff.1 hleader
    exact Option.isSome_iff_exists.2 ⟨v, hv⟩
  · rw [hw] at hleader
    obtain ⟨hmem, hr, e, he, heg⟩ := hwon.exists_offer hleader.symm
    refine ⟨⟨hmem, hr, e, he, heg.trans (m.find_find g)⟩, fun c hc hfor hbetter => ?_, fun hg => ?_⟩
    · obtain ⟨v, hv, hcv⟩ := hwon.best hc hfor
      cases hleader.trans hv
      rw [(CostContext.isBetterThan_iff c w).2 hbetter] at hcv
      cases hcv
    · rw [hg.find_eq] at hleader
      obtain ⟨before, after, heq, hbefore⟩ := hwon.first hg hleader.symm
      exact ⟨before, after, heq, fun c hc hfor => (CostContext.isBetterThan_iff w c).1 (hbefore c hc hfor)⟩

end

section

/-- Two groups of constants get plans at different costs before they turn out to be the same. -/
def mergedOffers : List (Operation Unit Nat) :=
  [.insert (rowSource false) (constants 0), .insert (rowSource false) (constants 1),
    .insertInto (rowSource false) ⟨0⟩ (.node (.physical (.constTableGet ⟨[], []⟩)) []),
    .insertInto (rowSource false) ⟨1⟩ (.node (.physical (.constTableGet ⟨[], [[]]⟩)) []),
    .addContext { constantsAt 3 with expr := ⟨2⟩ }, .addContext { constantsAt 2 with expr := ⟨3⟩ },
    .insertInto (rowSource false) ⟨0⟩ (constants 1)]

/-- The cheaper plan of the group that was taken over wins. -/
theorem winner_best_mergedOffers : (empty false none : Memo Unit Nat).Matched [] mergedOffers ∧
    ∃ id w, (runAll false none mergedOffers).winner? ⟨0⟩ .none = some (id, w) ∧ w.cost = 2 ∧
      ∀ c ∈ (empty false none).offers mergedOffers, (runAll false none mergedOffers).IsFor ⟨0⟩ .none c →
        ¬ (w.rank < c.rank ∨ c.rank = w.rank ∧ c.cost < w.cost) := by
  have hmatched : (empty false none : Memo Unit Nat).Matched [] mergedOffers :=
    ⟨trivial, trivial, trivial, trivial, trivial, trivial, trivial, trivial⟩
  have hcost : ((runAll false none mergedOffers).winner? ⟨0⟩ .none).map (fun w => w.2.cost) = some 2 := by
    decide +kernel
  obtain ⟨⟨id, w⟩, hw, hcost⟩ := Option.map_eq_some_iff.1 hcost
  obtain ⟨-, hbest, -⟩ := winner_best false none mergedOffers hmatched ⟨0⟩ .none
  exact ⟨hmatched, id, w, hw, hcost, (hbest id w hw).2.1⟩

end

end Cascade.Memo
