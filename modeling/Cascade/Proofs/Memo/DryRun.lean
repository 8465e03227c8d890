import Cascade.Proofs.Memo.Following
import Cascade.Proofs.Memo.Merging

/-!
The dry run of merges. It works on links only: they never join more than the merges do, and once no more
merges follow they join all of it. So it fails only if the merges bring together groups with different
logical properties, and if there are such groups it does fail.
-/

namespace Cascade.Memo

variable {σ κ : Type}

/-- Joined by links. -/
def Under (links : Links) (g h : GroupId) : Prop := links.find g.index = links.find h.index

section LinkPair

variable {links : Links} {l r : Nat}

theorem find_linkPair (hne : l ≠ r) (hl : l < links.size) (hr : r < links.size) (hlr : links.find l = l)
    (hrr : links.find r = r) (i : Nat) :
    (linkPair links l r).find i = if links.find i = max l r then min l r else links.find i := by
  unfold linkPair
  split
  · rename_i h
    rw [Nat.max_eq_right h, Nat.min_eq_left h]
    exact links.find_link (by omega) hr hrr hlr i
  · rename_i h
    rw [Nat.max_eq_left (by omega), Nat.min_eq_right (by omega)]
    exact links.find_link (by omega) hl hlr hrr i

@[simp] theorem size_linkPair (links : Links) (l r : Nat) : (linkPair links l r).size = links.size := by
  unfold linkPair
  split <;> simp

theorem roots_linkPair_lt (hne : l ≠ r) (hl : l < links.size) (hr : r < links.size) (hlr : links.find l = l)
    (hrr : links.find r = r) : (linkPair links l r).roots.length < links.roots.length := by
  unfold linkPair
  split
  · exact links.roots_link_lt (by omega) hr ((links.isRoot_iff r).2 hrr)
  · exact links.roots_link_lt (by omega) hl ((links.isRoot_iff l).2 hlr)

end LinkPair

/-- Links that join at least what the memo has merged and at most what the merges join, and only groups
with the same logical properties. -/
structure Approximates (m : Memo σ κ) (q : List Merge) (links : Links) : Prop where
  size : links.size = m.groups.length
  coarser : ∀ i, links.find (m.links.find i) = links.find i
  joined : ∀ g : GroupId, m.Joined q ⟨links.find g.index⟩ g
  logical : ∀ g, m.Knows g → m.logical? ⟨links.find g.index⟩ = m.logical? g

variable {m : Memo σ κ} {q : List Merge} {links : Links}

theorem approximates_start (c : m.Coherent) (q : List Merge) : m.Approximates q m.links where
  size := c.links_size
  coarser := m.links.find_find
  joined g := (joined_congruence m q).find g
  logical g _ := by
    unfold logical? group?
    rw [show (⟨m.links.find g.index⟩ : GroupId) = m.find g from rfl, m.find_find g]

/-- The end of a chain of coarser links stands for itself in the memo. -/
theorem Approximates.find_root (h : m.Approximates q links) {i : Nat} (hi : links.find i = i) :
    m.find ⟨i⟩ = ⟨i⟩ := by
  have hle := m.links.find_le i
  have hge := links.find_le (m.links.find i)
  rw [h.coarser, hi] at hge
  exact congrArg GroupId.mk (Nat.le_antisymm hle hge)

theorem Approximates.joined_of_under (h : m.Approximates q links) {a b : GroupId} (hab : Under links a b) :
    m.Joined q a b := by
  have hj := joined_congruence m q
  have ha := h.joined a
  rw [show links.find a.index = links.find b.index from hab] at ha
  exact hj.trans (hj.symm ha) (h.joined b)

theorem Approximates.linkPair (h : m.Approximates q links) {l r : GroupId} (hne : l ≠ r)
    (hl : links.find l.index = l.index) (hr : links.find r.index = r.index)
    (hcheck : m.checkEquivalent l r = .ok ()) (hjoined : m.Joined q l r) :
    m.Approximates q (linkPair links l.index r.index) ∧
      (∀ {a b}, Under links a b → Under (Memo.linkPair links l.index r.index) a b) ∧
      Under (Memo.linkPair links l.index r.index) l r ∧
      (Memo.linkPair links l.index r.index).roots.length < links.roots.length := by
  obtain ⟨x, y, hx, hy, hxy⟩ := checkEquivalent_ok hcheck
  have hne : l.index ≠ r.index := fun he => hne (by cases l; cases r; exact congrArg GroupId.mk he)
  have hlsize : l.index < links.size := h.size ▸ knows_of_content hx
  have hrsize : r.index < links.size := h.size ▸ knows_of_content hy
  have hfind := find_linkPair hne hlsize hrsize hl hr
  have hlogical : m.logical? l = m.logical? r := by
    rw [logical?_of_stores (h.find_root hl) hx, logical?_of_stores (h.find_root hr) hy, hxy]
  have hmin : ∀ P : GroupId → GroupId → Prop, P l r → P r l → P ⟨min l.index r.index⟩ ⟨max l.index r.index⟩ := by
    intro P hlr hrl
    rcases Nat.le_total l.index r.index with hle | hle
    · rw [Nat.min_eq_left hle, Nat.max_eq_right hle]
      exact hlr
    · rw [Nat.min_eq_right hle, Nat.max_eq_left hle]
      exact hrl
  have hj := joined_congruence m q
  refine ⟨⟨?_, ?_, ?_, ?_⟩, ?_, ?_, roots_linkPair_lt hne hlsize hrsize hl hr⟩
  · rw [size_linkPair, h.size]
  · intro i
    rw [hfind, hfind, h.coarser]
  · intro g
    rw [hfind]
    split
    · rename_i hg
      exact hj.trans (hmin (m.Joined q) hjoined (hj.symm hjoined)) (hg ▸ h.joined g)
    · exact h.joined g
  · intro g hg
    rw [hfind]
    split
    · rename_i hmax
      rw [← h.logical g hg, hmax]
      exact hmin (fun a b => m.logical? a = m.logical? b) hlogical hlogical.symm
    · exact h.logical g hg
  · intro a b hab
    unfold Under at *
    rw [hfind, hfind, hab]
  · unfold Under
    rw [hfind, hfind, hl, hr]
    rcases Nat.le_total l.index r.index with hle | hle
    · rw [Nat.min_eq_left hle, Nat.max_eq_right hle, if_pos rfl, if_neg hne]
    · rw [Nat.min_eq_right hle, Nat.max_eq_left hle, if_pos rfl, if_neg (Ne.symm hne)]

/-- What linking comes to: links that join the merges as well, or groups with different properties. -/
def LinksTo (m : Memo σ κ) (q : List Merge) (links : Links) (merges : List Merge) :
    Except PlanError Links → Prop
  | .ok linked => m.Approximates q linked ∧ (∀ {a b}, Under links a b → Under linked a b) ∧
      (∀ p ∈ merges, Under linked p.1 p.2) ∧ (linked = links ∨ linked.roots.length < links.roots.length)
  | .error _ => m.KnowsAll merges → ¬ m.Compatible q

theorem LinksTo.cons {links mid : Links} {p : Merge} {rest : List Merge} {result : Except PlanError Links}
    (hkeep : ∀ {a b}, Under links a b → Under mid a b) (hp : Under mid p.1 p.2)
    (hroots : mid = links ∨ mid.roots.length < links.roots.length) (h : m.LinksTo q mid rest result) :
    m.LinksTo q links (p :: rest) result := by
  unfold LinksTo at *
  cases result with
  | ok linked =>
    obtain ⟨ha, hkeep', hunder, hroots'⟩ := h
    refine ⟨ha, fun hab => hkeep' (hkeep hab), fun p' hp' => ?_, ?_⟩
    · rcases List.mem_cons.1 hp' with rfl | hp'
      · exact hkeep' hp
      · exact hunder p' hp'
    · rcases hroots with rfl | hroots
      · exact hroots'
      · exact .inr (hroots'.elim (fun he => he ▸ hroots) (fun hlt => Nat.lt_trans hlt hroots))
  | error e => exact fun hknown => h fun p' hp' => hknown p' (List.mem_cons_of_mem _ hp')

theorem linksTo_linkMerges (merges : List Merge) {links : Links} (h : m.Approximates q links)
    (hjoined : ∀ p ∈ merges, m.Joined q p.1 p.2) : m.LinksTo q links merges (m.linkMerges links merges) := by
  induction merges generalizing links with
  | nil => exact ⟨h, fun hab => hab, fun p hp => absurd hp List.not_mem_nil, .inl rfl⟩
  | cons p rest ih =>
    have hrest : ∀ p ∈ rest, m.Joined q p.1 p.2 := fun p hp => hjoined p (List.mem_cons_of_mem _ hp)
    have hj := joined_congruence m q
    have hends : m.Joined q ⟨links.find p.1.index⟩ ⟨links.find p.2.index⟩ :=
      hj.trans (h.joined p.1) (hj.trans (hjoined p (List.mem_cons_self ..)) (hj.symm (h.joined p.2)))
    unfold linkMerges
    simp only
    split
    · rename_i hsame
      exact (ih h hrest).cons (fun hab => hab) hsame (.inl rfl)
    · rename_i hdiff
      cases hcheck : m.checkEquivalent ⟨links.find p.1.index⟩ ⟨links.find p.2.index⟩ with
      | ok u =>
        obtain ⟨ha, hkeep, hunder, hroots⟩ := h.linkPair (fun he => hdiff (congrArg GroupId.index he))
          (links.find_find _) (links.find_find _) hcheck hends
        have hp : Under (Memo.linkPair links (links.find p.1.index) (links.find p.2.index)) p.1 p.2 := by
          have h1 := hkeep (a := p.1) (b := ⟨links.find p.1.index⟩) (links.find_find _).symm
          have h2 := hkeep (a := p.2) (b := ⟨links.find p.2.index⟩) (links.find_find _).symm
          exact h1.trans (hunder.trans h2.symm)
        exact (ih ha hrest).cons hkeep hp (.inr hroots)
      | error e =>
        intro hknown hm
        obtain ⟨hl, hr⟩ := hknown p (List.mem_cons_self ..)
        have hl : m.Knows ⟨links.find p.1.index⟩ := Nat.lt_of_le_of_lt (links.find_le _) hl
        have hr : m.Knows ⟨links.find p.2.index⟩ := Nat.lt_of_le_of_lt (links.find_le _) hr
        obtain ⟨x, hx⟩ := exists_content hl
        obtain ⟨y, hy⟩ := exists_content hr
        have heq := hm _ _ hl hr hends
        rw [logical?_of_stores (h.find_root (links.find_find _)) hx,
          logical?_of_stores (h.find_root (links.find_find _)) hy] at heq
        exact checkEquivalent_error hcheck hx hy (Option.some.inj heq)

/-- Links under which duplicates are in one class. -/
def Closed (m : Memo σ κ) (links : Links) : Prop :=
  ∀ {x y}, m.Duplicates links x y → Under links x.group y.group

theorem forall₂_of_keyUnder_eq (h : m.Approximates q links) {x y : MemoExpr}
    (hk : keyUnder links x = keyUnder links y) : List.Forall₂ (m.Joined q) x.inputs y.inputs := by
  have hinputs := (forall₂_map_eq_iff (fun g : GroupId => (⟨links.find g.index⟩ : GroupId)) _ _).2
    (congrArg ExprKey.inputs hk)
  exact List.Forall₂.imp (fun _ _ hab => h.joined_of_under (congrArg GroupId.index hab)) hinputs

theorem joined_followingMerges (c : m.Coherent) (h : m.Approximates q links) :
    ∀ p ∈ m.followingMerges links, m.Joined q p.1 p.2 := by
  intro p hp
  obtain ⟨x, y, ⟨⟨_, hx⟩, ⟨_, hy⟩, hk⟩, rfl⟩ := followingMerges_sound c hp
  have hj := joined_congruence m q
  have hgroups := hj.congr hx hy (congrArg ExprKey.op hk) (forall₂_of_keyUnder_eq h hk)
  exact hj.trans (h.joined x.group) (hj.trans hgroups (hj.symm (h.joined y.group)))

theorem known_followingMerges (c : m.Coherent) (links : Links) : m.KnowsAll (m.followingMerges links) := by
  intro p hp
  obtain ⟨x, y, ⟨⟨_, hx⟩, ⟨_, hy⟩, -⟩, rfl⟩ := followingMerges_sound c hp
  exact ⟨Nat.lt_of_le_of_lt (links.find_le _) (c.group_known hx.1),
    Nat.lt_of_le_of_lt (links.find_le _) (c.group_known hy.1)⟩

/-- No merges follow from the links the memo has. -/
theorem closed_start (c : m.Coherent) : m.Closed m.links := by
  intro x y ⟨⟨i, hx⟩, ⟨j, hy⟩, hk⟩
  have hinputs : ∀ {k e}, m.Live k e → keyUnder m.links e = e.key := fun he =>
    keyUnder_of_unaffected c he ((isAffected_eq_false_iff c he).2 fun g hg =>
      congrArg GroupId.index (c.input_survives he hg).2)
  have hij := c.eq_of_key hx hy (by rw [← hinputs hx, ← hinputs hy, hk])
  subst hij
  rw [hx.unique hy]
  rfl

/-- What the dry run comes to: links that join just what the merges do, or groups with different
properties. -/
def ClosesTo (m : Memo σ κ) (q : List Merge) (links : Links) (merges : List Merge) :
    Except PlanError Links → Prop
  | .ok linked => m.Approximates q linked ∧ (∀ {a b}, Under links a b → Under linked a b) ∧
      (∀ p ∈ merges, Under linked p.1 p.2) ∧ m.Closed linked
  | .error _ => m.KnowsAll merges → ¬ m.Compatible q

theorem closesTo_closeMerges (c : m.Coherent) (merges : List Merge) {links : Links} (h : m.Approximates q links)
    (hjoined : ∀ p ∈ merges, m.Joined q p.1 p.2)
    (hfollow : m.Closed links ∨ merges = m.followingMerges links) :
    m.ClosesTo q links merges (m.closeMerges links merges) := by
  -- on the number of groups that stand for themselves; a round that links nothing has found that no merges follow
  induction hn : links.roots.length using Nat.strongRecOn generalizing links merges with
  | ind n ih =>
    subst hn
    have hlinks := linksTo_linkMerges merges h hjoined
    rw [closeMerges]
    cases heq : m.linkMerges links merges with
    | error e =>
      rw [heq] at hlinks
      exact hlinks
    | ok linked =>
      rw [heq] at hlinks
      obtain ⟨ha, hkeep, hunder, hroots⟩ := hlinks
      change m.ClosesTo q links merges (if _ then _ else _)
      split
      · rename_i hlt
        have hrec := ih _ hlt (m.followingMerges linked) ha (joined_followingMerges c ha) (.inr rfl) rfl
        revert hrec
        cases m.closeMerges linked (m.followingMerges linked) with
        | error e => exact fun hrec _ => hrec (known_followingMerges c linked)
        | ok final =>
          rintro ⟨hf, hkeep', -, hclosed⟩
          exact ⟨hf, fun hab => hkeep' (hkeep hab), fun p hp => hkeep' (hunder p hp), hclosed⟩
      · rename_i hlt
        obtain rfl := hroots.resolve_right hlt
        refine ⟨ha, hkeep, hunder, ?_⟩
        rcases hfollow with hclosed | rfl
        · exact hclosed
        · exact fun hxy => followingMerges_complete c hunder hxy

/-- Closed links are a congruence, so they join all the merges do. -/
theorem congruence_under (h : m.Approximates q links) (hunder : ∀ p ∈ q, Under links p.1 p.2)
    (hclosed : m.Closed links) : m.Congruence q (Under links) where
  equivalence := ⟨fun _ => rfl, fun hab => Eq.symm hab, fun hab hbc => Eq.trans hab hbc⟩
  found {a b} hab := by
    have := congrArg (fun g : GroupId => links.find g.index) hab
    unfold Under
    rw [← h.coarser a.index, ← h.coarser b.index]
    exact this
  merged := hunder
  congr hx hy hop hinputs := by
    refine hclosed ⟨⟨_, hx⟩, ⟨_, hy⟩, ?_⟩
    have hmap := (forall₂_map_eq_iff (fun g : GroupId => (⟨links.find g.index⟩ : GroupId)) _ _).1
      (List.Forall₂.imp (fun _ _ hab => congrArg GroupId.mk hab) hinputs)
    rw [keyUnder, keyUnder, hop, hmap]

theorem closesTo_checkMerges (c : m.Coherent) (q : List Merge) : m.ClosesTo q m.links q (m.closeMerges m.links q) :=
  closesTo_closeMerges c q (approximates_start c q) (fun p hp => (joined_congruence m q).merged p hp)
    (.inl (closed_start c))

/-- The dry run accepts merges of known groups just if they bring together no groups with different
logical properties. -/
theorem checkMerges_ok_iff (c : m.Coherent) (hknown : m.KnowsAll q) :
    m.checkMerges q = .ok () ↔ m.Compatible q := by
  have h := closesTo_checkMerges c q
  unfold checkMerges
  cases hclose : m.closeMerges m.links q with
  | error e =>
    rw [hclose] at h
    constructor
    · intro hok
      cases hok
    · exact fun hm => absurd hm (h hknown)
  | ok linked =>
    rw [hclose] at h
    obtain ⟨ha, -, hunder, hclosed⟩ := h
    refine ⟨fun _ a b hak hbk hab => ?_, fun _ => rfl⟩
    have hab : Under linked a b := hab _ (congruence_under ha hunder hclosed)
    rw [← ha.logical a hak, ← ha.logical b hbk, show linked.find a.index = linked.find b.index from hab]

theorem known_of_checkMerges (c : m.Coherent) (h : m.checkMerges q = .ok ()) {p : Merge} (hp : p ∈ q)
    (hknown : m.Knows p.2) : m.Knows p.1 := by
  have hclose := closesTo_checkMerges c q
  unfold checkMerges at h
  cases heq : m.closeMerges m.links q with
  | error e =>
    rw [heq] at h
    cases h
  | ok linked =>
    rw [heq] at hclose
    obtain ⟨ha, -, hunder, -⟩ := hclose
    have hsame : linked.find p.1.index = linked.find p.2.index := hunder p hp
    have hlt : linked.find p.1.index < linked.size := hsame ▸ Nat.lt_of_le_of_lt (linked.find_le _) (ha.size ▸ hknown)
    have := linked.lt_size_of_find_lt hlt
    rwa [ha.size] at this

end Cascade.Memo
