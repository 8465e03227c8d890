import Cascade.Proofs.Memo.Representation
import Cascade.Proofs.Sequence

/-!
Congruences of a memo. A relation of groups that equates what the memo equates and what is to be merged
is a congruence if it equates the groups of expressions with the same operator over related groups. Two
groups are joined by merges if every congruence equates them; that is the least congruence.
-/

namespace Cascade.Memo

variable {σ κ : Type}

/-- An equivalence that equates merged groups and those to be merged. -/
structure Settles (m : Memo σ κ) (merges : List Merge) (R : GroupId → GroupId → Prop) : Prop where
  equivalence : Equivalence R
  found : ∀ {g h}, m.find g = m.find h → R g h
  merged : ∀ p ∈ merges, R p.1 p.2

/-- An equivalence that also equates the groups of expressions that are duplicates under it. -/
structure Congruence (m : Memo σ κ) (merges : List Merge) (R : GroupId → GroupId → Prop) : Prop
    extends Settles m merges R where
  congr : ∀ {i j x y}, m.Live i x → m.Live j y → x.op = y.op → List.Forall₂ R x.inputs y.inputs →
    R x.group y.group

/-- Two groups that merges bring together, directly or by congruence. -/
def Joined (m : Memo σ κ) (merges : List Merge) (g h : GroupId) : Prop :=
  ∀ R, m.Congruence merges R → R g h

/-- Equal as far as the memo knows. -/
def Same (m : Memo σ κ) (g h : GroupId) : Prop := m.find g = m.find h

section

variable {m n : Memo σ κ} {q p : List Merge} {R : GroupId → GroupId → Prop}

theorem Settles.refl (h : m.Settles q R) (g : GroupId) : R g g := h.equivalence.refl g

theorem Settles.symm (h : m.Settles q R) {a b : GroupId} (hab : R a b) : R b a := h.equivalence.symm hab

theorem Settles.trans (h : m.Settles q R) {a b c : GroupId} (hab : R a b) (hbc : R b c) : R a c :=
  h.equivalence.trans hab hbc

theorem Settles.find (h : m.Settles q R) (g : GroupId) : R (m.find g) g := h.found (m.find_find g)

theorem Settles.symm_all (h : m.Settles q R) {l r : List GroupId} (hlr : List.Forall₂ R l r) :
    List.Forall₂ R r l :=
  forall₂_symm hlr fun _ _ => h.symm

theorem Settles.trans_all (h : m.Settles q R) {l r t : List GroupId} (hlr : List.Forall₂ R l r)
    (hrt : List.Forall₂ R r t) : List.Forall₂ R l t :=
  forall₂_trans hlr hrt fun _ _ _ => h.trans

theorem Settles.of_map_eq (h : m.Settles q R) {l r : List GroupId} (hlr : l.map m.find = r.map m.find) :
    List.Forall₂ R l r :=
  List.Forall₂.imp (fun _ _ hab => h.found hab) ((forall₂_map_eq_iff m.find l r).2 hlr)

theorem equivalence_same (m : Memo σ κ) : Equivalence m.Same :=
  ⟨fun _ => rfl, fun h => Eq.symm h, fun h k => Eq.trans h k⟩

theorem joined_congruence (m : Memo σ κ) (q : List Merge) : m.Congruence q (m.Joined q) where
  equivalence :=
    { refl := fun g _ h => h.refl g
      symm := fun hab R h => h.symm (hab R h)
      trans := fun hab hbc R h => h.trans (hab R h) (hbc R h) }
  found hgh _ h := h.found hgh
  merged p hp _ h := h.merged p hp
  congr hx hy hop hinputs R h := h.congr hx hy hop (hinputs.imp fun _ _ hab => hab R h)

/-- It does not matter how merges are ordered. -/
theorem congruence_congr (h : ∀ x, x ∈ p ↔ x ∈ q) : m.Congruence p R ↔ m.Congruence q R :=
  ⟨fun hR => { hR with merged := fun x hx => hR.merged x ((h x).2 hx) },
    fun hR => { hR with merged := fun x hx => hR.merged x ((h x).1 hx) }⟩

/-- A congruence is one of another memo too if its expressions are related to those of the first one. -/
theorem Congruence.transfer (h : m.Congruence q R) (hs : n.Settles p R)
    (hlive : ∀ {i x}, n.Live i x → ∃ j y, m.Live j y ∧ y.op = x.op ∧ R y.group x.group ∧
      List.Forall₂ R y.inputs x.inputs) : n.Congruence p R where
  toSettles := hs
  congr := by
    intro i j x y hx hy hop hinputs
    obtain ⟨_, x', hx', hopx, hgx, hix⟩ := hlive hx
    obtain ⟨_, y', hy', hopy, hgy, hiy⟩ := hlive hy
    have hbetween := h.trans_all hix (h.trans_all hinputs (h.symm_all hiy))
    have hgroups := h.congr hx' hy' (hopx.trans (hop.trans hopy.symm)) hbetween
    exact h.trans (h.symm hgx) (h.trans hgroups hgy)

/-- A coherent memo without pending merges is closed: what it equates is the least congruence. -/
theorem Coherent.same_congruence (c : m.Coherent) : m.Congruence [] m.Same where
  equivalence := m.equivalence_same
  found h := h
  merged p hp := absurd hp List.not_mem_nil
  congr := by
    intro i j x y hx hy hop hinputs
    have survive : ∀ {k e}, m.Live k e → e.inputs.map m.find = e.inputs := fun he =>
      (List.map_congr_left fun g hg => (c.input_survives he hg).2).trans (List.map_id _)
    have hkey : x.inputs = y.inputs := by
      rw [← survive hx, ← survive hy]
      exact (forall₂_map_eq_iff m.find _ _).1 hinputs
    have hij := c.eq_of_key hx hy (by rw [MemoExpr.key, MemoExpr.key, hop, hkey])
    subst hij
    rw [hx.unique hy]
    exact m.equivalence_same.refl _

end

end Cascade.Memo
