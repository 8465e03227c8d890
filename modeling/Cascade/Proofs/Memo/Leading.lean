import Cascade.Proofs.Memo.Retention
import Mathlib.Order.Lattice.Nat

/-!
Winners as contexts. `leader?` is the context that wins in what is stored for a group. A memo that advances
(`Advances`) never gets a worse leader in the place of a better one, and leaves the leaders of groups alone
that it merges with no others. Insertions advance a memo, whatever they merge (`advances_insertAt`).
-/

namespace Cascade

namespace CostContext

variable {κ : Type} [LinearOrder κ] {a b c : CostContext κ}

theorem isBetterThan_iff (a b : CostContext κ) :
    a.isBetterThan b = true ↔ b.rank < a.rank ∨ a.rank = b.rank ∧ a.cost < b.cost := by
  simp [isBetterThan]

theorem not_isBetterThan_iff (a b : CostContext κ) :
    a.isBetterThan b = false ↔ a.rank < b.rank ∨ a.rank = b.rank ∧ b.cost ≤ a.cost := by
  rw [← Bool.not_eq_true, isBetterThan_iff]
  rcases Nat.lt_trichotomy a.rank b.rank with h | h | h
  · simp [h, Nat.lt_asymm h, Nat.ne_of_lt h]
  · simp [h]
  · simp [h, Nat.lt_asymm h, Nat.ne_of_gt h]

theorem not_isBetterThan_self (a : CostContext κ) : a.isBetterThan a = false :=
  (not_isBetterThan_iff a a).2 (.inr ⟨rfl, le_refl _⟩)

theorem not_isBetterThan_trans (h : a.isBetterThan b = false) (k : b.isBetterThan c = false) :
    a.isBetterThan c = false := by
  rw [not_isBetterThan_iff] at h k ⊢
  rcases h with h | ⟨h, hcost⟩ <;> rcases k with k | ⟨k, kcost⟩
  · exact .inl (Nat.lt_trans h k)
  · exact .inl (k ▸ h)
  · exact .inl (h ▸ k)
  · exact .inr ⟨h.trans k, le_trans kcost hcost⟩

/-- What beats a context beats all that do not beat it. -/
theorem isBetterThan_of_not (h : c.isBetterThan b = true) (k : a.isBetterThan b = false) : c.isBetterThan a = true := by
  rw [isBetterThan_iff] at h ⊢
  rw [not_isBetterThan_iff] at k
  rcases h with h | ⟨h, hcost⟩ <;> rcases k with k | ⟨k, kcost⟩
  · exact .inl (Nat.lt_trans k h)
  · exact .inl (k ▸ h)
  · exact .inl (h ▸ k)
  · exact .inr ⟨h.trans k.symm, lt_of_lt_of_le hcost kcost⟩

theorem not_isBetterThan_of (h : a.isBetterThan b = true) : b.isBetterThan a = false := by
  rw [isBetterThan_iff] at h
  rw [not_isBetterThan_iff]
  exact h.imp id fun h => ⟨h.1.symm, le_of_lt h.2⟩

end CostContext

namespace Memo

variable {σ κ : Type}

/-- The number of the context that wins in what is stored for a group. -/
def named? (m : Memo σ κ) (g : GroupId) (r : Required) : Option ContextId :=
  (m.groups[g.index]?).bind (fun x => x.winners.get? r)

/-- The context that wins in what is stored for a group. -/
def leader? (m : Memo σ κ) (g : GroupId) (r : Required) : Option (CostContext κ) :=
  (m.named? g r).bind m.contexts.context?

/-- A group that stands for no other one. -/
def Alone (m : Memo σ κ) (g : GroupId) : Prop := ∀ h, m.find h = m.find g → h = g

section

variable {m n : Memo σ κ} {others : ContextId → Nat} {g : GroupId} {r : Required}

theorem named?_of_stores {x : Group σ} (hx : m.Stores g x) (r : Required) : m.named? g r = x.winners.get? r := by
  unfold named?
  rw [show m.groups[g.index]? = some x from hx, Option.bind_some]

theorem map_winner? (m : Memo σ κ) (g : GroupId) (r : Required) :
    (m.winner? g r).map Prod.snd = m.leader? (m.find g) r := by
  unfold winner? leader? named? group? ContextStore.context?
  cases m.groups[(m.find g).index]? with
  | none => rfl
  | some x =>
    change ((x.winners.get? r).bind _).map Prod.snd = (x.winners.get? r).bind _
    cases x.winners.get? r with
    | none => rfl
    | some id =>
      change ((m.contexts.slots[id.index]?).bind fun slot => slot.context.bind fun c => some (id, c)).map Prod.snd =
        (m.contexts.slots[id.index]?).bind ContextSlot.context
      cases m.contexts.slots[id.index]? with
      | none => rfl
      | some slot =>
        obtain ⟨context, refs⟩ := slot
        cases context <;> rfl

theorem named?_congr (h : n.groups.map Group.winners = m.groups.map Group.winners) (g : GroupId) (r : Required) :
    n.named? g r = m.named? g r := by
  have hmap : ∀ k : Memo σ κ, k.named? g r = ((k.groups.map Group.winners)[g.index]?).bind (fun w => w.get? r) :=
    fun k => by
      rw [List.getElem?_map]
      unfold named?
      cases k.groups[g.index]? <;> rfl
  rw [hmap, hmap, h]

/-- Where references are counted, the context of a winner is there. -/
theorem Counted.exists_winner (h : m.Counted others) {x : Group σ} (hx : m.Stores g x) {row : Required × ContextId}
    (hrow : row ∈ x.winners.rows) : ∃ w, m.contexts.context? row.2 = some w := by
  have hpos : 0 < x.winners.valueList.count row.2 := List.count_pos_iff.2 (List.mem_map_of_mem hrow)
  have hle : x.winners.valueList.count row.2 ≤ m.winnerCount row.2 :=
    le_total (List.mem_map.2 ⟨x, List.mem_of_getElem? hx, rfl⟩)
  exact h.exists_of_outside (by omega)

theorem Counted.exists_named (h : m.Counted others) {id : ContextId} (hid : m.named? g r = some id) :
    ∃ w, m.contexts.context? id = some w := by
  obtain ⟨x, hx, hid⟩ := Option.bind_eq_some_iff.1 hid
  exact h.exists_winner hx (Lookup.mem_rows_of_get? hid)

/-- While groups name the same winners, and these are there, pruning does not change who leads. -/
theorem leader?_of_named (hn : n.Counted others) (hc : m.contexts.PrunedTo n.contexts)
    (hnamed : n.named? g r = m.named? g r) : n.leader? g r = m.leader? g r := by
  unfold leader?
  rw [hnamed]
  cases hid : m.named? g r with
  | none => rfl
  | some id =>
    obtain ⟨w, hw⟩ := hn.exists_named (hnamed.trans hid)
    have hm := hc.get ((ContextStore.get_ok_iff _ _ _).2 hw)
    exact hw.trans ((ContextStore.get_ok_iff _ _ _).1 hm).symm

theorem Alone.find_eq (h : m.Alone g) : m.find g = g := h _ (m.find_find g)

theorem Alone.of_extends (h : Extends m n) (k : n.Alone g) : m.Alone g := fun i hi => k i (h.find hi)

theorem named?_install {x : Group σ} (hx : m.Stores g x) (r : Required) (id : ContextId) (k : GroupId) (q : Required) :
    (m.modifyGroup g (fun x => { x with winners := x.winners.set r id })).named? k q =
      if k = g ∧ q = r then some id else m.named? k q := by
  unfold named? modifyGroup
  rw [List.getElem?_modify]
  by_cases hk : k = g
  · subst hk
    rw [show m.groups[k.index]? = some x from hx]
    simp [Lookup.get?_set]
  · have hindex : g.index ≠ k.index := fun he => hk (by cases g; cases k; exact congrArg GroupId.mk he.symm)
    simp [hk, hindex]

theorem winners_modifyGroup (m : Memo σ κ) (g : GroupId) {f : Group σ → Group σ} (hf : ∀ x, (f x).winners = x.winners) :
    (m.modifyGroup g f).groups.map Group.winners = m.groups.map Group.winners :=
  map_modify_of_eq Group.winners f hf m.groups g.index

theorem named?_vacate {g k : GroupId} (hk : k ≠ g) (r : Required) :
    (m.modifyGroup g vacate).named? k r = m.named? k r := by
  have hindex : g.index ≠ k.index := fun he => hk (by cases g; cases k; exact congrArg GroupId.mk he.symm)
  unfold named? modifyGroup
  rw [List.getElem?_modify]
  simp [hindex]

theorem leader?_redirectAll (ids : List ExprId) (acc : Memo σ κ × List Merge) (g : GroupId) (r : Required) :
    (ids.foldl redirectInputs acc).1.leader? g r = acc.1.leader? g r := by
  induction ids generalizing acc with
  | nil => rfl
  | cons id ids ih =>
    obtain ⟨hwinners, hcontexts⟩ := redirectInputs_keeps acc id
    refine (ih _).trans ?_
    unfold leader?
    rw [named?_congr hwinners, hcontexts]

end

section

variable [LinearOrder κ]

/-- The second memo knows what the first one does, and no leader of it is worse. -/
structure Advances (m n : Memo σ κ) : Prop extends Inherits m n where
  improves : ∀ {g r w}, m.leader? (m.find g) r = some w →
    ∃ v, n.leader? (n.find g) r = some v ∧ w.isBetterThan v = false
  undisturbed : ∀ {g}, n.Alone g → ∀ r, n.leader? g r = m.leader? g r

variable {m n o : Memo σ κ} {others : ContextId → Nat}

/-- Who leads all groups still leads them. -/
theorem Inherits.advances (h : Inherits m n) (hleader : ∀ g r, n.leader? (n.find g) r = m.leader? (m.find g) r) :
    Advances m n where
  toInherits := h
  improves {g r w} hw := ⟨w, (hleader g r).trans hw, w.not_isBetterThan_self⟩
  undisturbed {g} hg r := by
    have hleader := hleader g r
    rwa [hg.find_eq, (hg.of_extends h.toExtends).find_eq] at hleader

theorem Advances.refl (m : Memo σ κ) : Advances m m := (Inherits.refl m).advances fun _ _ => rfl

theorem Advances.trans (h : Advances m n) (k : Advances n o) : Advances m o where
  toInherits := h.toInherits.trans k.toInherits
  improves hw := by
    obtain ⟨v, hv, hwv⟩ := h.improves hw
    obtain ⟨u, hu, hvu⟩ := k.improves hv
    exact ⟨u, hu, CostContext.not_isBetterThan_trans hwv hvu⟩
  undisturbed hg r := (k.undisturbed hg r).trans (h.undisturbed (hg.of_extends k.toExtends) r)

/-- Pruning contexts that no winner needs advances a memo. -/
theorem Inherits.advances_of_winners (h : Inherits m n) (hn : n.Counted others) (hfind : ∀ g, n.find g = m.find g)
    (hw : n.groups.map Group.winners = m.groups.map Group.winners) (hc : m.contexts.PrunedTo n.contexts) :
    Advances m n :=
  h.advances fun g r => by rw [hfind, leader?_of_named hn hc (named?_congr hw _ r)]

/-! Merges. The survivor is led by the better one of two leaders. -/

theorem replacesWinner_eq {candidate current : ContextId} {c w : CostContext κ}
    (hc : m.contexts.context? candidate = some c) (hw : m.contexts.context? current = some w) :
    m.replacesWinner candidate current = c.isBetterThan w := by
  unfold replacesWinner
  rw [(ContextStore.get_ok_iff _ _ _).2 hc, (ContextStore.get_ok_iff _ _ _).2 hw]

/-- A row that is taken over decides between its context and the winner with its requirement. -/
theorem named?_adoptWinner {g : GroupId} (hg : ∃ x, m.Stores g x) (row : Required × ContextId) :
    (∀ k r, ¬ (k = g ∧ r = row.1) → (adoptWinner g m row).named? k r = m.named? k r) ∧
      ∃ id, (adoptWinner g m row).named? g row.1 = some id ∧
        ((id = row.2 ∧ ∀ current, m.named? g row.1 = some current → m.replacesWinner row.2 current = true) ∨
          m.named? g row.1 = some id ∧ m.replacesWinner row.2 id = false) := by
  obtain ⟨x, hx⟩ := hg
  obtain ⟨r, candidate⟩ := row
  have hinstall := named?_install hx r candidate
  have hrest : ∀ k q, ¬ (k = g ∧ q = r) →
      (m.modifyGroup g (fun x => { x with winners := x.winners.set r candidate })).named? k q = m.named? k q :=
    fun k q hkq => (hinstall k q).trans (if_neg hkq)
  have hself : (m.modifyGroup g (fun x => { x with winners := x.winners.set r candidate })).named? g r = some candidate :=
    (hinstall g r).trans (if_pos ⟨rfl, rfl⟩)
  have hget : (m.groups[g.index]?).bind (fun x => x.winners.get? r) = m.named? g r := rfl
  unfold adoptWinner
  dsimp only
  rw [hget]
  cases hcurrent : m.named? g r with
  | none => exact ⟨hrest, candidate, hself, .inl ⟨rfl, fun _ h => by cases h⟩⟩
  | some current =>
    dsimp only
    cases hreplaces : m.replacesWinner candidate current with
    | true => exact ⟨hrest, candidate, hself, .inl ⟨rfl, fun _ h => Option.some.inj h ▸ hreplaces⟩⟩
    | false => exact ⟨fun _ _ _ => rfl, current, hcurrent, .inr ⟨rfl, hreplaces⟩⟩

theorem prunedTo_adoptWinner (g : GroupId) (row : Required × ContextId) :
    m.contexts.PrunedTo (adoptWinner g m row).contexts := by
  obtain ⟨f, s, heq, -, -, hs⟩ := winnersChanged_adoptWinner g m (List.mem_singleton.2 (rfl : row = row))
  rw [heq]
  exact hs

/-- The leader afterwards is beaten neither by the context that is taken over nor by the leader before. -/
theorem leader?_adoptWinner {g : GroupId} {row : Required × ContextId} (hg : ∃ x, m.Stores g x)
    (h : m.Counted (fun id => others id + [row.2].count id)) :
    (∀ k r, ¬ (k = g ∧ r = row.1) → (adoptWinner g m row).leader? k r = m.leader? k r) ∧
      ∃ v, (adoptWinner g m row).leader? g row.1 = some v ∧
        (∀ c, m.contexts.context? row.2 = some c → c.isBetterThan v = false) ∧
        ∀ w, m.leader? g row.1 = some w → w.isBetterThan v = false := by
  obtain ⟨hcounted, -⟩ := counted_adoptWinner hg h
  have hpruned := prunedTo_adoptWinner (m := m) g row
  obtain ⟨hrest, id, hid, hchosen⟩ := named?_adoptWinner hg row
  refine ⟨fun k r hkr => leader?_of_named hcounted hpruned (hrest k r hkr), ?_⟩
  obtain ⟨v, hv⟩ := hcounted.exists_named hid
  have hvm : m.contexts.context? id = some v :=
    (ContextStore.get_ok_iff _ _ _).1 (hpruned.get ((ContextStore.get_ok_iff _ _ _).2 hv))
  refine ⟨v, by rw [leader?, hid]; exact hv, ?_⟩
  rcases hchosen with ⟨rfl, hreplaces⟩ | ⟨hcurrent, hreplaces⟩
  · refine ⟨fun c hc => Option.some.inj (hvm.symm.trans hc) ▸ v.not_isBetterThan_self, fun w hw => ?_⟩
    obtain ⟨current, hcurrent, hw⟩ := Option.bind_eq_some_iff.1 hw
    exact CostContext.not_isBetterThan_of ((replacesWinner_eq hvm hw).symm.trans (hreplaces current hcurrent))
  · refine ⟨fun c hc => (replacesWinner_eq hc hvm).symm.trans hreplaces, fun w hw => ?_⟩
    rw [leader?, hcurrent] at hw
    exact Option.some.inj (hvm.symm.trans hw) ▸ v.not_isBetterThan_self

/-- No row of a table that is taken over beats the leader with its requirement afterwards. -/
theorem leader?_adoptAll {g : GroupId} (rows : List (Required × ContextId)) (hg : ∃ x, m.Stores g x)
    (h : m.Counted (fun id => others id + (rows.map Prod.snd).count id)) :
    (∀ k, k ≠ g → ∀ r, (rows.foldl (adoptWinner g) m).leader? k r = m.leader? k r) ∧
      (∀ r w, m.leader? g r = some w →
        ∃ v, (rows.foldl (adoptWinner g) m).leader? g r = some v ∧ w.isBetterThan v = false) ∧
      ∀ row ∈ rows, ∀ c, m.contexts.context? row.2 = some c →
        ∃ v, (rows.foldl (adoptWinner g) m).leader? g row.1 = some v ∧ c.isBetterThan v = false := by
  induction rows generalizing m with
  | nil => exact ⟨fun _ _ _ => rfl, fun r w hw => ⟨w, hw, w.not_isBetterThan_self⟩, fun row hrow => by cases hrow⟩
  | cons row rows ih =>
    have hfirst : m.Counted (fun id => others id + (rows.map Prod.snd).count id + [row.2].count id) :=
      ContextStore.Counted.congr h fun id => by
        show _ + (others id + _ + _) = _ + (others id + _)
        simp only [List.map_cons, List.count_cons, List.count_nil]
        omega
    obtain ⟨hcounted, hstores⟩ := counted_adoptWinner hg hfirst
    obtain ⟨hrest, v, hv, hrow, hleader⟩ := leader?_adoptWinner hg hfirst
    have hpruned := prunedTo_adoptWinner (m := m) g row
    obtain ⟨hothers, himproves, htaken⟩ := ih hstores hcounted
    refine ⟨fun k hk r => (hothers k hk r).trans (hrest k r fun h => hk h.1), fun r w hw => ?_, fun q hq c hc => ?_⟩
    · by_cases hr : r = row.1
      · obtain ⟨u, hu, hvu⟩ := himproves row.1 v hv
        exact ⟨u, hr ▸ hu, CostContext.not_isBetterThan_trans (hleader w (hr ▸ hw)) hvu⟩
      · exact himproves r w ((hrest g r fun h => hr h.2).trans hw)
    · rcases List.mem_cons.1 hq with rfl | hq
      · obtain ⟨u, hu, hvu⟩ := himproves q.1 v hv
        exact ⟨u, hu, CostContext.not_isBetterThan_trans (hrow c hc) hvu⟩
      · -- the rows to come hold references, so their contexts are still there
        have hpos : 0 < (rows.map Prod.snd).count q.2 := List.count_pos_iff.2 (List.mem_map_of_mem hq)
        obtain ⟨d, hd⟩ : ∃ d, (adoptWinner g m row).contexts.context? q.2 = some d :=
          hcounted.exists_of_outside (show 0 < _ + (others q.2 + (rows.map Prod.snd).count q.2) by omega)
        have hdm := (ContextStore.get_ok_iff _ _ _).1 (hpruned.get ((ContextStore.get_ok_iff _ _ _).2 hd))
        exact htaken q hq c (hd.trans (hdm.symm.trans hc))

/-- Of the groups that stay, only the survivor can get other leaders, and none that its own or those it
takes over beat. -/
theorem leader?_takeOver {survivor dissolved : GroupId} {content : Group σ} (hne : survivor ≠ dissolved)
    (hs : ∃ x, m.Stores survivor x) (hd : m.Stores dissolved content) (h : m.Counted others) :
    (∀ k, k ≠ survivor → k ≠ dissolved → ∀ r, (m.takeOver survivor dissolved content).leader? k r = m.leader? k r) ∧
      ∀ k, k = survivor ∨ k = dissolved → ∀ r w, m.leader? k r = some w →
        ∃ v, (m.takeOver survivor dissolved content).leader? survivor r = some v ∧ w.isBetterThan v = false := by
  obtain ⟨x, hx⟩ := hs
  unfold takeOver
  simp only [foldl_modifyExpr]
  -- the members move first, then the dissolved group gives its winners up
  have habsorbed : (({ m with exprs := regroup survivor content.members m.exprs } : Memo σ κ).modifyGroup survivor
      (absorb content)).Counted others :=
    h.congr (winners_modifyGroup _ survivor fun _ => rfl) rfl
  have hnamed := named?_congr (winners_modifyGroup { m with exprs := regroup survivor content.members m.exprs }
    survivor (f := absorb content) fun _ => rfl)
  obtain ⟨y, hy, -⟩ := stores_modifyGroup (m := { m with exprs := regroup survivor content.members m.exprs })
    (g := survivor) hx (absorb content)
  obtain ⟨z, hz, hzd⟩ := stores_modifyGroup (m := { m with exprs := regroup survivor content.members m.exprs })
    (g := survivor) hd (absorb content)
  have hwinners : z.winners = content.winners := by rcases hzd with rfl | rfl <;> rfl
  have hcontexts : (({ m with exprs := regroup survivor content.members m.exprs } : Memo σ κ).modifyGroup survivor
    (absorb content)).contexts = m.contexts := rfl
  generalize ({ m with exprs := regroup survivor content.members m.exprs } : Memo σ κ).modifyGroup survivor
    (absorb content) = n at habsorbed hnamed hy hz hcontexts ⊢
  obtain ⟨v, hv, -⟩ := stores_modifyGroup (g := dissolved) hy vacate
  have hvacated := counted_vacate hz habsorbed
  rw [hwinners] at hvacated
  have hkept : ∀ k, k ≠ dissolved → ∀ r, (n.modifyGroup dissolved vacate).leader? k r = m.leader? k r := by
    intro k hk r
    unfold leader?
    rw [named?_vacate hk, hnamed]
    exact congrArg (fun s : ContextStore κ => (m.named? k r).bind s.context?) hcontexts
  obtain ⟨hothers, himproves, htaken⟩ := leader?_adoptAll content.winners.rows ⟨v, hv⟩ hvacated
  refine ⟨fun k hks hkd r => (hothers k hks r).trans (hkept k hkd r), ?_⟩
  rintro k (rfl | rfl) r w hw
  · exact himproves r w ((hkept k hne r).trans hw)
  · obtain ⟨id, hid, hw⟩ := Option.bind_eq_some_iff.1 hw
    rw [named?_of_stores hd] at hid
    exact htaken (r, id) (Lookup.mem_rows_of_get? hid) w (hcontexts ▸ hw)

/-- Merging two groups puts both under a leader that neither of their own beats. -/
theorem advances_mergeInto {survivor dissolved : GroupId} {content : Group σ}
    (h : m.Mergeable survivor dissolved content) (c : m.Coherent) (hcounted : m.Counted others)
    (hinherits : Inherits m (m.mergeInto survivor dissolved (Nat.le_of_lt h.lt) content).1) :
    Advances m (m.mergeInto survivor dissolved (Nat.le_of_lt h.lt) content).1 := by
  have hfind : ∀ g, (m.mergeInto survivor dissolved (Nat.le_of_lt h.lt) content).1.find g =
      relink survivor dissolved (m.find g) := fun g =>
    (find_of_links_eq (links_mergeInto m (Nat.le_of_lt h.lt) content) g).trans
      (find_linked (f := id) (c := m.contexts) h c.links_size g)
  have hleader : ∀ g r, (m.mergeInto survivor dissolved (Nat.le_of_lt h.lt) content).1.leader? g r =
      (m.takeOver survivor dissolved content).leader? g r := fun g r => leader?_redirectAll _ _ g r
  obtain ⟨hothers, himproves⟩ := leader?_takeOver h.ne (exists_content h.survivor_survives.1) h.stores hcounted
  generalize (m.mergeInto survivor dissolved (Nat.le_of_lt h.lt) content).1 = n at hinherits hfind hleader ⊢
  have hsurvivor : n.find survivor = survivor := by
    rw [hfind, h.survivor_survives.2, relink, if_neg h.ne]
  have hdissolved : n.find dissolved = survivor := by
    rw [hfind, h.dissolved_survives.2, relink, if_pos rfl]
  refine { hinherits with improves := fun {g r w} hw => ?_, undisturbed := fun {g} hg r => ?_ }
  · rw [hleader]
    by_cases hg : m.find g = survivor ∨ m.find g = dissolved
    · obtain ⟨v, hv, hwv⟩ := himproves (m.find g) hg r w hw
      refine ⟨v, ?_, hwv⟩
      rcases hg with hg | hg
      · rwa [hfind, hg, relink, if_neg h.ne]
      · rwa [hfind, hg, relink, if_pos rfl]
    · obtain ⟨hgs, hgd⟩ := not_or.1 hg
      refine ⟨w, ?_, w.not_isBetterThan_self⟩
      rw [hfind, relink, if_neg hgd, hothers _ hgs hgd]
      exact hw
  · rw [hleader]
    refine hothers g (fun he => h.ne ?_) (fun he => h.ne ?_) r
    · exact he.symm.trans (hg dissolved (by rw [he, hsurvivor, hdissolved])).symm
    · exact (hg survivor (by rw [he, hsurvivor, hdissolved])).trans he

/-- Merges that are carried out to the end advance the memo. -/
theorem advances_mergeAll (c : m.Coherent) {queue : List Merge} (hknown : m.KnowsAll queue) (h : m.Counted others)
    {u : Unit} (hn : m.mergeAll queue = (.ok u, n)) : Advances m n := by
  fun_induction mergeAll m queue with
  | case1 m =>
    cases hn
    exact .refl _
  | case2 m l r rest a b hab ih =>
    have hsame := progress_same (m := m) (show a = b from congrArg GroupId.mk hab) rest
    exact ih c (hsame.known hknown) h hn
  | case3 m l r rest a b hab survivor dissolved e hcheck => cases congrArg Prod.fst hn
  | case4 m l r rest a b hab survivor dissolved hnone hcheck => cases congrArg Prod.fst hn
  | case5 m l r rest a b hab survivor dissolved content hcontent hcheck hsize merged ih =>
    obtain ⟨hl, hr⟩ := hknown (l, r) (List.mem_cons_self ..)
    obtain ⟨hs, hd⟩ := survives_min_max hl hr hab
    obtain ⟨hlt, hcases⟩ := min_max_cases a b hab
    obtain ⟨x, y, hx, hy, hxy⟩ := checkEquivalent_ok hcheck
    have hmergeable : m.Mergeable survivor dissolved content := ⟨hlt, hs, hd, hcontent⟩
    have hlogical : ∀ z, m.Stores survivor z → z.logical = content.logical := by
      intro z hz
      rw [Option.some.inj (hz.symm.trans hx), hxy, Option.some.inj (hy.symm.trans hcontent)]
    obtain ⟨o, follow, heq, co, ho⟩ := progress_mergeInto hmergeable c hlogical hcases rest
    have hmerged : merged = (o, follow) := heq
    have hcounted : o.Counted others := by
      have := counted_mergeInto (Nat.le_of_lt hlt) ⟨x, hx⟩ hcontent h
      rwa [heq] at this
    have hadvances := advances_mergeInto hmergeable c h (by rw [heq]; exact ho.toInherits)
    rw [heq] at hadvances
    rw [hmerged] at ih hn
    exact hadvances.trans (ih co (ho.known hknown) hcounted hn)
  | case6 m l r rest a b hab survivor dissolved content hcontent hcheck hsize => cases congrArg Prod.fst hn

/-! Insertions. -/

theorem advances_copying {t : Insertion σ κ} (k : Copying m t) (w : m.WellFormed) : Advances m t.memo := by
  have hundo : t.memo.rollback m.mark t.newCtes = m := k.undoable
  have hcontexts : t.memo.contexts = m.contexts := (congrArg Memo.contexts hundo :)
  have hgroups : (t.memo.groups.take m.groups.length).map Group.winners = m.groups.map Group.winners := by
    have hwinners := congrArg (fun n : Memo σ κ => n.groups.map Group.winners) hundo
    simp only [rollback, List.map_map] at hwinners
    exact hwinners
  refine k.toInherits.advances fun g r => ?_
  rw [k.find_eq]
  generalize m.find g = g
  have hnamed : t.memo.named? g r = m.named? g r := by
    by_cases hg : g.index < m.groups.length
    · have hold : ({ t.memo with groups := t.memo.groups.take m.groups.length } : Memo σ κ).named? g r = m.named? g r :=
        named?_congr hgroups g r
      rw [← hold]
      unfold named?
      rw [List.getElem?_take_of_lt hg]
    · have hm : m.named? g r = none := by
        unfold named?
        rw [List.getElem?_eq_none (Nat.le_of_not_lt hg)]
        rfl
      rw [hm]
      unfold named?
      cases hx : t.memo.groups[g.index]? with
      | none => rfl
      | some x =>
        have hnil := winners_nil_of_copying k w (g := g) hx (Nat.le_of_not_lt hg)
        simp [Lookup.get?, hnil]
  unfold leader?
  rw [hnamed, hcontexts]

theorem advances_insertAt (source : PropertySource σ) (e : Expr) {target : Option GroupId} (w : m.WellFormed)
    (htarget : ∀ g, target = some g → m.find g = g) (h : m.Counted others) :
    Advances m (m.insertAt source target e).2 := by
  unfold insertAt
  rcases copyIn_cases source e w htarget with ⟨err, t, hrun, hundo⟩ | ⟨placed, t, hrun, hcopy, hplaced, hmerges⟩
  · rw [hrun]
    dsimp only
    rw [show t.memo.rollback m.mark t.newCtes = m from hundo]
    exact .refl m
  · rw [hrun]
    dsimp only
    cases hcheck : t.memo.checkMerges t.merges with
    | error err =>
      dsimp only
      rw [show t.memo.rollback m.mark t.newCtes = m from hcopy.undoable]
      exact .refl m
    | ok u =>
      have hknown : t.memo.KnowsAll t.merges := by
        intro p hp
        obtain ⟨-, hp'⟩ := mem_requested (hmerges ▸ hp)
        have hright : t.memo.Knows p.2 := hp' ▸ hplaced.1
        exact ⟨known_of_checkMerges hcopy.wellFormed.coherent hcheck hp hright, hright⟩
      obtain ⟨n, hn, -⟩ := mergeAll_of_checkMerges hcopy hplaced hmerges hcheck
      dsimp only
      rw [hn]
      exact (advances_copying hcopy w).trans
        (advances_mergeAll hcopy.wellFormed.coherent hknown (counted_copying hcopy w h) hn)

end

end Memo
end Cascade
