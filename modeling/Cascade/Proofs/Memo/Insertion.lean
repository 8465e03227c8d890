import Cascade.Proofs.Memo.Copying
import Cascade.Proofs.Memo.DryRun

/-!
Insertions. Either the tree is copied, the dry run accepts the requested merges and they are carried out
without an error, or the memo is as it was (`insertAt_cases`).
-/

namespace Cascade.Memo

variable {σ κ : Type}

/-- Once nothing is left to merge no surviving group is empty. -/
theorem Progress.wellFormed {m n : Memo σ κ} {q : List Merge} (h : Progress m q n []) (w : m.WellFormed)
    (c : n.Coherent) : n.WellFormed where
  coherent := c
  nonempty := by
    intro g x hx hg
    have hsettled : n.Settles [] n.Same := c.same_congruence.toSettles
    have hknown : m.Knows g := (h.knows_iff g).1 (knows_of_content hx)
    have hroot : m.find g = g := by
      have hsame : n.find (m.find g) = g := (h.find (m.find_find g)).trans hg
      have hle := n.find_le (m.find g)
      rw [hsame] at hle
      have := m.find_le g
      cases hfind : m.find g with
      | mk i =>
        rw [hfind] at hle this
        exact congrArg GroupId.mk (Nat.le_antisymm this hle)
    obtain ⟨y, hy⟩ := exists_content hknown
    obtain ⟨id, hid⟩ := List.exists_mem_of_ne_nil _ (w.nonempty hy hroot)
    obtain ⟨e, he, heg⟩ := (w.coherent.members_iff hy id).1 hid
    obtain ⟨j, z, hz, -, hsame⟩ := h.represented he
    have hzg : n.find z.group = g := by
      have h1 : n.find z.group = n.find e.group := (hsame _ hsettled).1
      have h2 : n.find e.group = n.find g := h.find (heg.trans hroot.symm)
      rw [h1, h2, hg]
    intro hnil
    have hmem := (c.members_iff hx j).2 ⟨z, hz, hzg⟩
    rw [hnil] at hmem
    cases hmem

/-- What a successful insertion consists of: a tree copied into the memo and merges carried out. -/
structure Inserted (m : Memo σ κ) (target : Option GroupId) (s : Insertion σ κ) (placed : Placed) (n : Memo σ κ) :
    Prop where
  copying : Copying m s
  placed_survives : s.memo.Survives placed.group
  merges_eq : s.merges = requested target placed.group
  progress : Progress s.memo s.merges n []
  wellFormed : n.WellFormed

variable {m : Memo σ κ} {target : Option GroupId} (source : PropertySource σ) (e : Expr)

theorem copyIn_cases (w : m.WellFormed) (htarget : ∀ t, target = some t → m.find t = t) :
    (∃ err s, (copyIn source target 0 e : InsertM σ κ Placed).run ⟨m, [], []⟩ = (.error err, s) ∧ Undoable m s) ∨
    ∃ placed s, (copyIn source target 0 e : InsertM σ κ Placed).run ⟨m, [], []⟩ = (.ok placed, s) ∧
      Copying m s ∧ s.memo.Survives placed.group ∧ s.merges = requested target placed.group := by
  have h := Copying.yields_copyIn source htarget 0 e (copying_start w)
  unfold Yields at h
  split at h
  · rename_i placed s hrun
    obtain ⟨hs, hplaced⟩ := h
    exact .inr ⟨placed, s, hrun, hs.copying, hplaced, hs.merges_eq⟩
  · rename_i err s hrun
    exact .inl ⟨err, s, hrun, h⟩

variable [LT κ] [DecidableLT κ]

/-- What the dry run accepts is carried out. -/
theorem mergeAll_of_checkMerges {s : Insertion σ κ} {placed : Placed} (c : Copying m s)
    (hplaced : s.memo.Survives placed.group) (hmerges : s.merges = requested target placed.group)
    (hcheck : s.memo.checkMerges s.merges = .ok ()) :
    ∃ n, s.memo.mergeAll s.merges = (.ok (), n) ∧ Inserted m target s placed n := by
  have hc := c.wellFormed.coherent
  have hknown : s.memo.KnowsAll s.merges := by
    intro p hp
    obtain ⟨-, hp'⟩ := mem_requested (hmerges ▸ hp)
    have hright : s.memo.Knows p.2 := hp' ▸ hplaced.1
    exact ⟨known_of_checkMerges hc hcheck hp hright, hright⟩
  have hcompatible := (checkMerges_ok_iff hc hknown).1 hcheck
  rcases mergesTo_mergeAll hc hknown with ⟨n, hn, cn, hp⟩ | ⟨-, hnot⟩
  · exact ⟨n, hn, c, hplaced, hmerges, hp, hp.wellFormed c.wellFormed cn⟩
  · exact absurd hcompatible hnot

theorem insertAt_cases (w : m.WellFormed) (htarget : ∀ t, target = some t → m.find t = t) :
    (∃ err, m.insertAt source target e = (.error err, m)) ∨
    ∃ placed s n, (copyIn source target 0 e : InsertM σ κ Placed).run ⟨m, [], []⟩ = (.ok placed, s) ∧
      m.insertAt source target e = (.ok { placed with group := n.find placed.group }, n) ∧
      Inserted m target s placed n := by
  unfold insertAt
  rcases copyIn_cases source e w htarget with
    ⟨err, s, hrun, hundo⟩ | ⟨placed, s, hrun, hcopy, hplaced, hmerges⟩
  · rw [hrun]
    exact .inl ⟨err, Prod.ext rfl hundo⟩
  · rw [hrun]
    dsimp only
    cases hcheck : s.memo.checkMerges s.merges with
    | error err => exact .inl ⟨err, Prod.ext rfl hcopy.undoable⟩
    | ok u =>
      obtain ⟨n, hn, hinserted⟩ := mergeAll_of_checkMerges hcopy hplaced hmerges hcheck
      rw [hn]
      exact .inr ⟨placed, s, n, rfl, rfl, hinserted⟩

/-- A tree that asks for no merges is inserted once it is copied. -/
theorem insertAt_of_copyIn {s : Insertion σ κ} {placed : Placed}
    (hrun : (copyIn source target 0 e : InsertM σ κ Placed).run ⟨m, [], []⟩ = (.ok placed, s))
    (hmerges : s.merges = []) :
    m.insertAt source target e = (.ok { placed with group := s.memo.find placed.group }, s.memo) := by
  have hcheck : s.memo.checkMerges [] = .ok () := by
    rw [checkMerges, closeMerges, linkMerges]
    change Except.map _ (if s.memo.links.roots.length < s.memo.links.roots.length then _ else _) = _
    rw [if_neg (Nat.lt_irrefl _)]
    rfl
  unfold insertAt
  rw [hrun]
  dsimp only
  rw [hmerges, hcheck, mergeAll]

theorem eq_of_insertAt_error (w : m.WellFormed) (htarget : ∀ t, target = some t → m.find t = t) {err : PlanError}
    {after : Memo σ κ} (h : m.insertAt source target e = (.error err, after)) : after = m := by
  rcases insertAt_cases source e w htarget with ⟨err', heq⟩ | ⟨placed, s, n, -, heq, -⟩
  · exact (congrArg Prod.snd (heq.symm.trans h)).symm
  · cases congrArg Prod.fst (heq.symm.trans h)

/-- An insertion brings no new winners, whether it succeeds or not, and leaves a well-formed memo. -/
theorem inherits_insertAt (w : m.WellFormed) (htarget : ∀ t, target = some t → m.find t = t) :
    Inherits m (m.insertAt source target e).2 ∧ (m.insertAt source target e).2.WellFormed := by
  rcases insertAt_cases source e w htarget with ⟨err, heq⟩ | ⟨placed, s, n, -, heq, h⟩
  · rw [heq]
    exact ⟨.refl m, w⟩
  · rw [heq]
    exact ⟨h.copying.toInherits.trans h.progress.toInherits, h.wellFormed⟩

end Cascade.Memo
