import Cascade.Proofs.Memo.Progress

/-!
Carrying out merges. If all groups that merges bring together have the same logical properties, the
worklist of `mergeAll` runs empty without an error, and the memo then equates what the merges join in
the memo before, and nothing else. It fails only if some of these properties differ.
-/

namespace Cascade.Memo

variable {σ κ : Type}

/-- The logical properties of the group that stands for a group. -/
def logical? (m : Memo σ κ) (g : GroupId) : Option LogicalProperties := (m.group? g).map Group.logical

/-- All groups that merges bring together have the same logical properties. -/
def Compatible (m : Memo σ κ) (merges : List Merge) : Prop :=
  ∀ g h, m.Knows g → m.Knows h → m.Joined merges g h → m.logical? g = m.logical? h

theorem logical?_eq {m n : Memo σ κ} (h : Extends m n) {g : GroupId} (hg : m.Knows g) :
    n.logical? g = m.logical? g := by
  obtain ⟨x, hx⟩ := exists_content (knows_find hg)
  obtain ⟨y, hy, hxy⟩ := h.groups hx
  unfold logical?
  rw [hy, show m.group? g = some x from hx, Option.map_some, Option.map_some, hxy]

theorem logical?_mono {m n : Memo σ κ} (h : Extends m n) {g : GroupId} {l : LogicalProperties}
    (hl : m.logical? g = some l) : n.logical? g = some l := by
  obtain ⟨x, hx, rfl⟩ := Option.map_eq_some_iff.1 hl
  obtain ⟨y, hy, hxy⟩ := h.groups hx
  unfold logical?
  rw [hy, Option.map_some, hxy]

theorem logical?_congr {m : Memo σ κ} {g h : GroupId} (hgh : m.find g = m.find h) : m.logical? g = m.logical? h := by
  unfold logical? group?
  rw [hgh]

theorem logical?_of_stores {m : Memo σ κ} {g : GroupId} {x : Group σ} (hg : m.find g = g) (hx : m.Stores g x) :
    m.logical? g = some x.logical := by
  unfold logical? group?
  rw [hg, show m.groups[g.index]? = some x from hx, Option.map_some]

theorem compatible_congr {m : Memo σ κ} {p q : List Merge} (h : ∀ x, x ∈ p ↔ x ∈ q) :
    m.Compatible p ↔ m.Compatible q := by
  simp only [Compatible, Joined, congruence_congr h]

theorem Progress.compatible {m n : Memo σ κ} {p q : List Merge} (h : Progress m p n q) (hm : m.Compatible p) :
    n.Compatible q := by
  intro a b ha hb hab
  have ha := (h.knows_iff a).1 ha
  have hb := (h.knows_iff b).1 hb
  rw [logical?_eq h.toExtends ha, logical?_eq h.toExtends hb]
  exact hm a b ha hb ((h.joined_iff a b).2 hab)

theorem checkEquivalent_ok {m : Memo σ κ} {l r : GroupId} {u : Unit} (h : m.checkEquivalent l r = .ok u) :
    ∃ x y, m.Stores l x ∧ m.Stores r y ∧ x.logical = y.logical := by
  unfold checkEquivalent at h
  split at h
  · rename_i x y hx hy
    split at h
    · rename_i heq
      exact ⟨x, y, hx, hy, heq⟩
    · cases h
  · cases h
  · cases h

theorem checkEquivalent_error {m : Memo σ κ} {l r : GroupId} {e : PlanError}
    (h : m.checkEquivalent l r = .error e) {x y : Group σ} (hx : m.Stores l x)
    (hy : m.Stores r y) : x.logical ≠ y.logical := by
  unfold checkEquivalent at h
  rw [hx, hy] at h
  dsimp only at h
  split at h
  · cases h
  · assumption

theorem min_max_cases (a b : GroupId) (h : a.index ≠ b.index) :
    (min a.index b.index < max a.index b.index) ∧
      ((a = ⟨min a.index b.index⟩ ∧ b = ⟨max a.index b.index⟩) ∨
        (a = ⟨max a.index b.index⟩ ∧ b = ⟨min a.index b.index⟩)) := by
  refine ⟨by omega, ?_⟩
  rcases Nat.le_total a.index b.index with hle | hle
  · rw [Nat.min_eq_left hle, Nat.max_eq_right hle]
    exact .inl ⟨rfl, rfl⟩
  · rw [Nat.min_eq_right hle, Nat.max_eq_left hle]
    exact .inr ⟨rfl, rfl⟩

/-- Two different groups that are to be merged survive, the smaller and the larger one. -/
theorem survives_min_max {m : Memo σ κ} {l r : GroupId} (hl : m.Knows l) (hr : m.Knows r)
    (hne : (m.find l).index ≠ (m.find r).index) :
    m.Survives ⟨min (m.find l).index (m.find r).index⟩ ∧ m.Survives ⟨max (m.find l).index (m.find r).index⟩ := by
  obtain ⟨-, ⟨ha, hb⟩ | ⟨ha, hb⟩⟩ := min_max_cases (m.find l) (m.find r) hne
  · exact ⟨ha ▸ survives_find hl, hb ▸ survives_find hr⟩
  · exact ⟨hb ▸ survives_find hr, ha ▸ survives_find hl⟩

theorem progress_same {m : Memo σ κ} {l r : GroupId} (hlr : m.find l = m.find r) (rest : List Merge) :
    Progress m ((l, r) :: rest) m rest := by
  have settles {R} (h : m.Settles rest R) : m.Settles ((l, r) :: rest) R := by
    refine ⟨h.equivalence, h.found, fun p hp => ?_⟩
    rcases List.mem_cons.1 hp with rfl | hp
    · exact h.found hlr
    · exact h.merged p hp
  exact
    { toInherits := .refl m
      verify_eq := rfl
      producers := (Carries.refl m).producers
      limit_eq := rfl
      applied_eq := rfl
      fades := .refl m
      knows_iff := fun _ => Iff.rfl
      known := fun hq p hp => hq p (List.mem_cons_of_mem _ hp)
      congruence_iff := fun R =>
        ⟨fun h => { h with merged := fun p hp => h.merged p (List.mem_cons_of_mem _ hp) },
          fun h => ⟨settles h.toSettles, h.congr⟩⟩
      settles := settles
      represented := fun hy => ⟨_, _, hy, rfl, fun _ h => ⟨h.refl _, h.of_map_eq rfl⟩⟩ }

/-- What a worklist of merges comes to: a memo that has nothing left to merge, or groups with different
properties. -/
def MergesTo (m : Memo σ κ) (queue : List Merge) (result : Except PlanError Unit × Memo σ κ) : Prop :=
  (∃ n, result = (.ok (), n) ∧ n.Coherent ∧ Progress m queue n []) ∨
    (∃ e n, result = (.error e, n)) ∧ ¬ m.Compatible queue

theorem Progress.mergesTo {m n : Memo σ κ} {p q : List Merge} (h : Progress m p n q)
    {result : Except PlanError Unit × Memo σ κ} (hn : n.MergesTo q result) : m.MergesTo p result := by
  rcases hn with ⟨o, ho, co, hno⟩ | ⟨herr, hnot⟩
  · exact .inl ⟨o, ho, co, h.trans hno⟩
  · exact .inr ⟨herr, fun hm => hnot (h.compatible hm)⟩

section

variable [LT κ] [DecidableLT κ]

theorem progress_mergeInto {m : Memo σ κ} {survivor dissolved : GroupId} {content : Group σ}
    (h : m.Mergeable survivor dissolved content) (c : m.Coherent)
    (hlogical : ∀ x, m.Stores survivor x → x.logical = content.logical) {l r : GroupId}
    (hlr : (m.find l = survivor ∧ m.find r = dissolved) ∨ (m.find l = dissolved ∧ m.find r = survivor))
    (rest : List Merge) :
    ∃ n follow, m.mergeInto survivor dissolved (Nat.le_of_lt h.lt) content = (n, follow) ∧ n.Coherent ∧
      Progress m ((l, r) :: rest) n (rest ++ follow) := by
  obtain ⟨f, ctx, hf, hctx, hkeep, heq⟩ := mergeInto_eq m (Nat.le_of_lt h.lt) (Nat.ne_of_lt h.lt) content
  have hlinked := progress_linked h c hlogical hf hkeep hctx hlr rest
  obtain ⟨n, follow, hfold, cn, hn⟩ := progress_redirectAll
    ((m.linkedMemo survivor dissolved (Nat.le_of_lt h.lt) content f ctx).referencing dissolved)
    (nodup_referencing _ _) (coherent_linked h c) ((hlinked.knows_iff dissolved).2 h.dissolved_survives.1)
    (fun id hid => ((mem_referencing_iff _ _ id).1 hid).imp fun _ he => he.1) []
  exact ⟨n, follow, heq.trans hfold, cn, hlinked.trans (hn rest)⟩

theorem mergesTo_mergeAll {m : Memo σ κ} (c : m.Coherent) {queue : List Merge} (hknown : m.KnowsAll queue) :
    m.MergesTo queue (m.mergeAll queue) := by
  -- on the worklist; the groups that stand for themselves get fewer with each merge
  fun_induction mergeAll m queue with
  | case1 m => exact .inl ⟨m, rfl, c, .refl m []⟩
  | case2 m l r rest a b hab ih =>
    have hsame := progress_same (m := m) (show a = b from congrArg GroupId.mk hab) rest
    exact hsame.mergesTo (ih c (hsame.known hknown))
  | case3 m l r rest a b hab survivor dissolved e hcheck =>
    obtain ⟨hl, hr⟩ := hknown (l, r) (List.mem_cons_self ..)
    obtain ⟨hs, hd⟩ := survives_min_max hl hr hab
    obtain ⟨x, hx⟩ := exists_content hs.1
    obtain ⟨y, hy⟩ := exists_content hd.1
    refine .inr ⟨⟨e, m, rfl⟩, fun hm => checkEquivalent_error hcheck hx hy ?_⟩
    have hjoined : m.Joined ((l, r) :: rest) survivor dissolved := by
      have hm := joined_congruence m ((l, r) :: rest)
      have hab : m.Joined ((l, r) :: rest) a b :=
        hm.trans (hm.find l) (hm.trans (hm.merged (l, r) (List.mem_cons_self ..)) (hm.symm (hm.find r)))
      obtain ⟨-, ⟨ha, hb⟩ | ⟨ha, hb⟩⟩ := min_max_cases a b ‹_›
      · exact (show a = survivor from ha) ▸ (show b = dissolved from hb) ▸ hab
      · exact (show b = survivor from hb) ▸ (show a = dissolved from ha) ▸ hm.symm hab
    have heq := hm survivor dissolved hs.1 hd.1 hjoined
    rw [logical?_of_stores hs.2 hx, logical?_of_stores hd.2 hy] at heq
    exact Option.some.inj heq
  | case4 m l r rest a b hab survivor dissolved hnone hcheck =>
    obtain ⟨x, y, -, hy, -⟩ := checkEquivalent_ok hcheck
    cases hnone.symm.trans hy
  | case5 m l r rest a b hab survivor dissolved content hcontent hcheck hsize merged ih =>
    obtain ⟨hl, hr⟩ := hknown (l, r) (List.mem_cons_self ..)
    obtain ⟨hs, hd⟩ := survives_min_max hl hr hab
    obtain ⟨hlt, hcases⟩ := min_max_cases a b hab
    obtain ⟨x, y, hx, hy, hxy⟩ := checkEquivalent_ok hcheck
    have h : m.Mergeable survivor dissolved content := ⟨hlt, hs, hd, hcontent⟩
    have hlogical : ∀ z, m.Stores survivor z → z.logical = content.logical := by
      intro z hz
      rw [Option.some.inj (hz.symm.trans hx), hxy, Option.some.inj (hy.symm.trans hcontent)]
    obtain ⟨n, follow, heq, cn, hn⟩ := progress_mergeInto h c hlogical hcases rest
    have hmerged : merged = (n, follow) := heq
    rw [hmerged] at ih ⊢
    exact hn.mergesTo (ih cn (hn.known hknown))
  | case6 m l r rest a b hab survivor dissolved content hcontent hcheck hsize =>
    refine absurd ?_ hsize
    rw [c.links_size]
    exact knows_of_content hcontent

end

end Cascade.Memo
