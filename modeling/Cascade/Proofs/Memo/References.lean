import Cascade.Proofs.Memo.Counts
import Cascade.Proofs.Memo.History
import Cascade.Search.Extract

/-!
References to cost contexts in a memo. Winners, present contexts and pins refer to contexts, and after any
operations every count is the number of these references (`Counted`). So a context that a winner or a pin
refers to is there with all its inputs, and its plan can be read.
-/

namespace Cascade

namespace Lookup

variable {α β : Type} [DecidableEq α] [DecidableEq β]

theorem count_valueList_set (t : Lookup α β) (a : α) (b v : β) :
    (t.set a b).valueList.count v + (t.get? a).toList.count v = t.valueList.count v + [b].count v := by
  suffices h : ∀ l : List (α × β), ((setRow a b l).map Prod.snd).count v +
      ((l.find? (fun r => decide (r.1 = a))).map Prod.snd).toList.count v = (l.map Prod.snd).count v + [b].count v from
    h t.rows
  intro l
  induction l with
  | nil => simp [setRow]
  | cons r rest ih =>
    unfold setRow
    by_cases hr : r.1 = a
    · simp [hr, List.count_cons]
      omega
    · simp [hr, List.count_cons] at ih ⊢
      omega

end Lookup

namespace Memo

variable {σ κ : Type}

/-- How many winners name a context. -/
def winnerCount (m : Memo σ κ) (id : ContextId) : Nat := total (m.groups.map (fun x => x.winners.valueList.count id))

/-- Counts are right if besides winners and present contexts so many others refer to a context. -/
def Counted (m : Memo σ κ) (others : ContextId → Nat) : Prop :=
  m.contexts.Counted (fun id => m.winnerCount id + others id)

section

variable {m n : Memo σ κ} {others : ContextId → Nat}

theorem winnerCount_congr (h : n.groups.map Group.winners = m.groups.map Group.winners) (id : ContextId) :
    n.winnerCount id = m.winnerCount id := by
  have hmap : ∀ k : Memo σ κ, k.groups.map (fun x => x.winners.valueList.count id) =
      (k.groups.map Group.winners).map (fun w => w.valueList.count id) := fun k => by rw [List.map_map]; rfl
  unfold winnerCount
  rw [hmap, hmap, h]

theorem Counted.congr (h : m.Counted others) (hwinners : n.groups.map Group.winners = m.groups.map Group.winners)
    (hcontexts : n.contexts = m.contexts) : n.Counted others := by
  unfold Counted
  rw [hcontexts]
  exact ContextStore.Counted.congr h fun id => by rw [winnerCount_congr hwinners]

theorem winnerCount_modifyGroup {g : GroupId} {x : Group σ} (hx : m.Stores g x) (f : Group σ → Group σ)
    (id : ContextId) : (m.modifyGroup g f).winnerCount id + x.winners.valueList.count id =
      m.winnerCount id + (f x).winners.valueList.count id :=
  total_map_modify (fun x => x.winners.valueList.count id) f hx

theorem stores_modifyGroup {g k : GroupId} {x : Group σ} (hx : m.Stores k x) (f : Group σ → Group σ) :
    ∃ y, (m.modifyGroup g f).Stores k y ∧ (y = f x ∨ y = x) := by
  have hget : (m.modifyGroup g f).groups[k.index]? = _ := (List.getElem?_modify ..).trans (congrArg _ hx)
  refine ⟨_, hget, ?_⟩
  split
  · exact .inl rfl
  · exact .inr rfl

theorem checkContext_inputs {c : CostContext κ} {e : MemoExpr} (h : m.checkContext c = .ok e) :
    ∀ k ∈ c.inputs, ∃ d, m.contexts.context? k = some d := by
  obtain ⟨f, -, h⟩ := exists_of_bind_ok h
  split at h
  · cases h
  · obtain ⟨u, hinputs, -⟩ := exists_of_bind_ok h
    intro k hk
    have hget := ok_of_forM_ok hinputs k hk
    cases hd : m.contexts.get k with
    | error err =>
      rw [hd] at hget
      cases hget
    | ok d => exact ⟨d, (ContextStore.get_ok_iff _ _ _).1 hd⟩

theorem counted_empty (verify : Bool) (limit : Option Nat) :
    (empty verify limit : Memo σ κ).Counted (fun _ => 0) :=
  ContextStore.counted_empty

theorem counted_release {id : ContextId} (h : m.Counted (fun k => others k + [id].count k)) :
    ({ m with contexts := m.contexts.release id } : Memo σ κ).Counted others := by
  change (m.contexts.releaseAll [id]).Counted _
  refine ContextStore.counted_releaseAll (ContextStore.Counted.congr h fun k => ?_)
  exact (Nat.add_assoc ..)

/-- A new winner takes a reference over, and that of the winner it replaces is left. -/
theorem counted_install {g : GroupId} {x : Group σ} (hx : m.Stores g x) {r : Required} {id : ContextId}
    (h : m.Counted (fun k => others k + [id].count k)) :
    (m.modifyGroup g (fun x => { x with winners := x.winners.set r id })).Counted
      (fun k => others k + (x.winners.get? r).toList.count k) := by
  refine ContextStore.Counted.congr h fun k => ?_
  have hcount := winnerCount_modifyGroup hx (fun x => { x with winners := x.winners.set r id }) k
  have hset := x.winners.count_valueList_set r id k
  show _ + (others k + _) = m.winnerCount k + (others k + _)
  dsimp only at hcount
  omega

/-! Merges. What a dissolved group leaves is taken over by the survivor or released. -/

theorem counted_vacate {g : GroupId} {x : Group σ} (hx : m.Stores g x) (h : m.Counted others) :
    (m.modifyGroup g vacate).Counted (fun id => others id + x.winners.valueList.count id) := by
  refine ContextStore.Counted.congr h fun id => ?_
  have hcount := winnerCount_modifyGroup hx vacate id
  have hnone : (vacate x).winners.valueList.count id = 0 := rfl
  show _ + (others id + _) = m.winnerCount id + others id
  omega

theorem winners_withdraw (m : Memo σ κ) (id : ExprId) (g : GroupId) :
    (m.withdraw id g).groups.map Group.winners = m.groups.map Group.winners :=
  map_modify_of_eq Group.winners (fun x => { x with members := x.members.filter (fun k => !decide (k = id)) })
    (fun _ => rfl) m.groups g.index

theorem redirectInputs_keeps (acc : Memo σ κ × List Merge) (id : ExprId) :
    (redirectInputs acc id).1.groups.map Group.winners = acc.1.groups.map Group.winners ∧
      (redirectInputs acc id).1.contexts = acc.1.contexts := by
  unfold redirectInputs
  simp only
  split
  · exact ⟨rfl, rfl⟩
  · split
    · exact ⟨rfl, rfl⟩
    · split
      · exact ⟨rfl, rfl⟩
      · exact ⟨winners_withdraw _ id _, rfl⟩

theorem counted_redirectAll (ids : List ExprId) {acc : Memo σ κ × List Merge} (h : acc.1.Counted others) :
    (ids.foldl redirectInputs acc).1.Counted others := by
  induction ids generalizing acc with
  | nil => exact h
  | cons id ids ih =>
    obtain ⟨hwinners, hcontexts⟩ := redirectInputs_keeps acc id
    exact ih (h.congr hwinners hcontexts)

section

variable [LT κ] [DecidableLT κ]

theorem counted_adoptWinner {g : GroupId} {w : Required × ContextId} (hg : ∃ x, m.Stores g x)
    (h : m.Counted (fun id => others id + [w.2].count id)) :
    (adoptWinner g m w).Counted others ∧ ∃ y, (adoptWinner g m w).Stores g y := by
  obtain ⟨x, hx⟩ := hg
  obtain ⟨r, candidate⟩ := w
  have hinstalled := counted_install (r := r) hx h
  obtain ⟨y, hy, -⟩ := stores_modifyGroup (g := g) hx (fun x => { x with winners := x.winners.set r candidate })
  have hget : (m.groups[g.index]?).bind (fun x => x.winners.get? r) = x.winners.get? r := by
    rw [show m.groups[g.index]? = some x from hx, Option.bind_some]
  unfold adoptWinner
  dsimp only
  rw [hget]
  cases hcurrent : x.winners.get? r with
  | none =>
    rw [hcurrent] at hinstalled
    exact ⟨hinstalled, y, hy⟩
  | some current =>
    rw [hcurrent] at hinstalled
    dsimp only
    split
    · exact ⟨counted_release hinstalled, y, hy⟩
    · exact ⟨counted_release h, x, hx⟩

theorem counted_adoptAll {g : GroupId} (ws : List (Required × ContextId)) (hg : ∃ x, m.Stores g x)
    (h : m.Counted (fun id => others id + (ws.map Prod.snd).count id)) :
    (ws.foldl (adoptWinner g) m).Counted others := by
  induction ws generalizing m with
  | nil => exact h
  | cons w ws ih =>
    have hfirst : m.Counted (fun id => others id + (ws.map Prod.snd).count id + [w.2].count id) :=
      ContextStore.Counted.congr h fun id => by
        show _ + (others id + _ + _) = _ + (others id + _)
        simp only [List.map_cons, List.count_cons, List.count_nil]
        omega
    obtain ⟨hw, hg⟩ := counted_adoptWinner hg hfirst
    exact ih hg hw

theorem counted_takeOver {survivor dissolved : GroupId} {content : Group σ} (hs : ∃ x, m.Stores survivor x)
    (hd : m.Stores dissolved content) (h : m.Counted others) : (m.takeOver survivor dissolved content).Counted others := by
  obtain ⟨x, hx⟩ := hs
  unfold takeOver
  simp only [foldl_modifyExpr]
  -- the members move and bring no winners
  have habsorbed : (({ m with exprs := regroup survivor content.members m.exprs } : Memo σ κ).modifyGroup survivor
      (absorb content)).Counted others :=
    h.congr (map_modify_of_eq Group.winners (absorb content) (fun _ => rfl) m.groups survivor.index) rfl
  obtain ⟨y, hy, -⟩ := stores_modifyGroup (m := { m with exprs := regroup survivor content.members m.exprs })
    (g := survivor) hx (absorb content)
  obtain ⟨z, hz, hzd⟩ := stores_modifyGroup (m := { m with exprs := regroup survivor content.members m.exprs })
    (g := survivor) hd (absorb content)
  have hwinners : z.winners = content.winners := by rcases hzd with rfl | rfl <;> rfl
  generalize ({ m with exprs := regroup survivor content.members m.exprs } : Memo σ κ).modifyGroup survivor
    (absorb content) = n at habsorbed hy hz ⊢
  obtain ⟨v, hv, -⟩ := stores_modifyGroup (g := dissolved) hy vacate
  have hvacated := counted_vacate hz habsorbed
  rw [hwinners] at hvacated
  exact (counted_adoptAll content.winners.rows ⟨v, hv⟩ hvacated).congr rfl rfl

theorem counted_mergeInto {survivor dissolved : GroupId} (hle : survivor.index ≤ dissolved.index) {content : Group σ}
    (hs : ∃ x, m.Stores survivor x) (hd : m.Stores dissolved content) (h : m.Counted others) :
    (m.mergeInto survivor dissolved hle content).1.Counted others :=
  counted_redirectAll _ ((counted_takeOver hs hd h).congr rfl rfl)

/-- Merges leave the counts right, also if they end with an error. -/
theorem counted_mergeAll (queue : List Merge) (h : m.Counted others) : (m.mergeAll queue).2.Counted others := by
  fun_induction mergeAll m queue with
  | case1 m => exact h
  | case2 m l r rest a b heq ih => exact ih h
  | case3 m l r rest a b hne survivor dissolved e hcheck => exact h
  | case4 m l r rest a b hne survivor dissolved hcheck hcontent => exact h
  | case5 m l r rest a b hne survivor dissolved content hcontent hcheck hknown merged ih =>
    obtain ⟨x, y, hx, -⟩ := checkEquivalent_ok hcheck
    exact ih (counted_mergeInto _ ⟨x, hx⟩ hcontent h)
  | case6 m l r rest a b hne survivor dissolved content hcontent hcheck hknown => exact h

end

/-! Insertions bring new groups without winners before they merge any. -/

/-- The groups that copying a tree has added have no winners. -/
theorem winners_nil_of_copying {t : Insertion σ κ} (c : Copying m t) (w : m.WellFormed) {g : GroupId} {x : Group σ}
    (hx : t.memo.Stores g x) (hg : m.groups.length ≤ g.index) : x.winners.rows = [] := by
  refine List.eq_nil_iff_forall_not_mem.2 fun row hrow => ?_
  obtain ⟨k, y, hy, -, hk⟩ := c.winners hx row hrow
  -- an old winner is in an old group, and a number that was not in use stood for itself
  have hown : m.find g = g := congrArg GroupId.mk (m.links.find_of_size_le (w.coherent.links_size ▸ hg))
  rw [c.find_eq, c.find_eq, hown] at hk
  have hlt : (m.find k).index < m.groups.length := knows_find (knows_of_content hy)
  rw [hk] at hlt
  omega

theorem counted_copying {t : Insertion σ κ} (c : Copying m t) (w : m.WellFormed) (h : m.Counted others) :
    t.memo.Counted others := by
  have hundo : t.memo.rollback m.mark t.newCtes = m := c.undoable
  have hcontexts : t.memo.contexts = m.contexts := (congrArg Memo.contexts hundo :)
  have hgroups : (t.memo.groups.take m.groups.length).map Group.winners = m.groups.map Group.winners := by
    have hwinners := congrArg (fun n : Memo σ κ => n.groups.map Group.winners) hundo
    simp only [rollback, List.map_map] at hwinners
    exact hwinners
  unfold Counted
  rw [hcontexts]
  refine ContextStore.Counted.congr h fun id => ?_
  have hnew : total ((t.memo.groups.drop m.groups.length).map (fun x => x.winners.valueList.count id)) = 0 := by
    refine total_eq_zero fun n hn => ?_
    obtain ⟨x, hx, rfl⟩ := List.mem_map.1 hn
    obtain ⟨i, hi⟩ := List.getElem?_of_mem hx
    rw [List.getElem?_drop] at hi
    have hnil := winners_nil_of_copying c w (g := ⟨m.groups.length + i⟩) hi (Nat.le_add_right _ _)
    simp [Lookup.valueList, hnil]
  have hsplit : t.memo.winnerCount id = m.winnerCount id := by
    rw [winnerCount, ← List.take_append_drop m.groups.length t.memo.groups, List.map_append, total_append, hnew]
    exact winnerCount_congr (m := m) (n := { t.memo with groups := t.memo.groups.take m.groups.length }) hgroups id
  rw [hsplit]

theorem counted_undone {t : Insertion σ κ} (hundo : Undoable m t) (h : m.Counted others) :
    (t.memo.rollback m.mark t.newCtes).Counted others := by
  rw [show t.memo.rollback m.mark t.newCtes = m from hundo]
  exact h

section

variable [LT κ] [DecidableLT κ]

theorem counted_insertAt (source : PropertySource σ) (e : Expr) {target : Option GroupId} (w : m.WellFormed)
    (htarget : ∀ g, target = some g → m.find g = g) (h : m.Counted others) :
    (m.insertAt source target e).2.Counted others := by
  unfold insertAt
  rcases copyIn_cases source e w htarget with ⟨err, t, hrun, hundo⟩ | ⟨placed, t, hrun, hcopy, -, -⟩
  · rw [hrun]
    exact counted_undone hundo h
  · rw [hrun]
    dsimp only
    cases t.memo.checkMerges t.merges with
    | error err => exact counted_undone hcopy.undoable h
    | ok u =>
      have hmerged := counted_mergeAll t.merges (counted_copying hcopy w h)
      dsimp only
      split
      all_goals
        rename_i hmerge
        rw [hmerge] at hmerged
        exact hmerged

theorem counted_addContext {c : CostContext κ} {r : Option ContextId} (w : m.WellFormed) (h : m.Counted others)
    (hadd : m.addContext c = .ok (r, n)) : n.Counted others := by
  obtain ⟨e, he, hadd⟩ := exists_of_bind_ok hadd
  obtain ⟨x, hx⟩ := exists_content (knows_find (w.coherent.group_known (checkContext_ok he)))
  have hget : (m.group? (m.find e.group)).bind (fun x => x.winners.get? c.required) = x.winners.get? c.required := by
    unfold group?
    rw [m.find_find, show m.groups[(m.find e.group).index]? = some x from hx, Option.bind_some]
  dsimp only at hadd
  split at hadd
  · cases hadd
    exact ContextStore.Counted.congr (ContextStore.counted_discard h) fun _ => rfl
  · rw [hget] at hadd
    have hadded : ({ m with contexts := (m.contexts.add c).2 } : Memo σ κ).Counted
        (fun k => others k + [(m.contexts.add c).1].count k) :=
      ContextStore.Counted.congr (ContextStore.counted_add h (checkContext_inputs he)) fun k => (Nat.add_assoc ..).symm
    have hinstalled := counted_install (m := { m with contexts := (m.contexts.add c).2 }) (r := c.required) hx hadded
    cases hprevious : x.winners.get? c.required with
    | none =>
      rw [hprevious] at hadd hinstalled
      cases hadd
      exact hinstalled
    | some previous =>
      rw [hprevious] at hadd hinstalled
      cases hadd
      exact counted_release hinstalled

end

theorem counted_pin {id : ContextId} (h : m.Counted others) (hpin : m.pin id = .ok n) :
    n.Counted (fun k => others k + [id].count k) := by
  obtain ⟨c, hc, hpin⟩ := exists_of_bind_ok hpin
  cases hpin
  have hretained := ContextStore.counted_retain h ((ContextStore.get_ok_iff _ _ _).1 hc)
  exact ContextStore.Counted.congr hretained fun k => (Nat.add_assoc ..).symm

theorem counted_unpin {id : ContextId} (h : m.Counted (fun k => others k + [id].count k)) :
    (m.unpin id).Counted others := counted_release h

end

end Memo
end Cascade
