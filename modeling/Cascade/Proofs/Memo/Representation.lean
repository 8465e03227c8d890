import Cascade.Memo.Insert
import Cascade.Memo.Winner
import Cascade.Proofs.Memo.Classes
import Cascade.Proofs.Sequence

/-!
What a memo has to keep true of itself. `CoherentBut` says it of the links, the index, the members and
the producers, with some inputs of expressions excused: while groups are merged these still name the
dissolved group. `WellFormed` excuses none, and no surviving group is empty. Changes that leave links,
index, producers, and the shape of expressions and groups alone keep all of it (`SameShape`).
-/

namespace Cascade

namespace Memo

variable {σ κ : Type}

/-- A group the memo has. -/
def Knows (m : Memo σ κ) (g : GroupId) : Prop := g.index < m.groups.length

/-- What a memo stores for a group, whether or not that was merged into another. -/
abbrev Stores (m : Memo σ κ) (g : GroupId) (x : Group σ) : Prop := m.groups[g.index]? = some x

/-- A group that stands for itself. -/
def Survives (m : Memo σ κ) (g : GroupId) : Prop := m.Knows g ∧ m.find g = g

/-- An expression that no merge has removed. -/
def Live (m : Memo σ κ) (id : ExprId) (e : MemoExpr) : Prop := m.expr? id = some e ∧ e.removed = false

/-- A memo that agrees with itself, but for the inputs `excused` of expressions. -/
structure CoherentBut (m : Memo σ κ) (excused : ExprId → GroupId → Prop) : Prop where
  links_size : m.links.size = m.groups.length
  inputs_survive : ∀ {id e}, m.Live id e → ∀ g ∈ e.inputs, m.Survives g ∨ excused id g
  index_iff : ∀ k id, m.index.get? k = some id ↔ ∃ e, m.Live id e ∧ e.key = k
  members_iff : ∀ {g x}, m.Stores g x →
    ∀ id, id ∈ x.members ↔ ∃ e, m.Live id e ∧ m.find e.group = g
  members_nodup : ∀ {g x}, m.Stores g x → x.members.Nodup
  group_known : ∀ {id e}, m.expr? id = some e → m.Knows e.group
  winners_nil : ∀ {g x}, m.Stores g x → m.find g ≠ g → x.winners.rows = []
  producers_survive : ∀ {cte g}, m.cteProducers.get? cte = some g → m.Survives g
  index_rows : ∀ r ∈ m.index.rows, r.2.index < m.exprs.length
  arity : ∀ {id e}, m.expr? id = some e → ∀ n, e.op.arity = some n → e.inputs.length = n

/-- A memo that agrees with itself. -/
abbrev Coherent (m : Memo σ κ) : Prop := m.CoherentBut (fun _ _ => False)

/-- A memo between two operations. -/
structure WellFormed (m : Memo σ κ) : Prop where
  coherent : m.Coherent
  nonempty : ∀ {g x}, m.Stores g x → m.find g = g → x.members ≠ []

theorem find_find (m : Memo σ κ) (g : GroupId) : m.find (m.find g) = m.find g :=
  congrArg GroupId.mk (m.links.find_find g.index)

theorem find_le (m : Memo σ κ) (g : GroupId) : (m.find g).index ≤ g.index := m.links.find_le g.index

theorem find_of_links_eq {m n : Memo σ κ} (h : n.links = m.links) (g : GroupId) : n.find g = m.find g := by
  unfold find
  rw [h]

theorem knows_find {m : Memo σ κ} {g : GroupId} (h : m.Knows g) : m.Knows (m.find g) :=
  Nat.lt_of_le_of_lt (m.find_le g) h

theorem survives_find {m : Memo σ κ} {g : GroupId} (h : m.Knows g) : m.Survives (m.find g) :=
  ⟨knows_find h, m.find_find g⟩

theorem exists_content {m : Memo σ κ} {g : GroupId} (h : m.Knows g) :
    ∃ x, m.Stores g x :=
  ⟨_, List.getElem?_eq_getElem h⟩

theorem knows_of_content {m : Memo σ κ} {g : GroupId} {x : Group σ} (h : m.Stores g x) :
    m.Knows g :=
  (List.getElem?_eq_some_iff.1 h).1

theorem lt_of_expr? {m : Memo σ κ} {id : ExprId} {e : MemoExpr} (h : m.expr? id = some e) :
    id.index < m.exprs.length :=
  (List.getElem?_eq_some_iff.1 h).1

theorem checkedFind_ok {m : Memo σ κ} {g r : GroupId} (h : m.checkedFind g = .ok r) :
    m.Knows g ∧ r = m.find g := by
  unfold checkedFind at h
  split at h
  · rename_i hk
    exact ⟨hk, (Except.ok.inj h).symm⟩
  · cases h

theorem group_ok {m : Memo σ κ} {g : GroupId} {x : Group σ} (h : m.group g = .ok x) : m.group? g = some x := by
  unfold group at h
  split at h
  · rename_i y hy
    exact hy.trans (congrArg some (Except.ok.inj h))
  · cases h

theorem expr_ok {m : Memo σ κ} {id : ExprId} {e : MemoExpr} (h : m.expr id = .ok e) : m.expr? id = some e := by
  unfold expr at h
  split at h
  · rename_i hx
    rw [hx, Except.ok.inj h]
  · cases h

section

variable {m : Memo σ κ} {excused : ExprId → GroupId → Prop}

theorem CoherentBut.eq_of_key (h : m.CoherentBut excused) {i j : ExprId} {e f : MemoExpr}
    (hi : m.Live i e) (hj : m.Live j f) (hkey : e.key = f.key) : i = j := by
  have hi := (h.index_iff e.key i).2 ⟨e, hi, rfl⟩
  have hj := (h.index_iff e.key j).2 ⟨f, hj, hkey.symm⟩
  exact Option.some.inj (hi.symm.trans hj)

theorem CoherentBut.mono (h : m.CoherentBut excused) {more : ExprId → GroupId → Prop}
    (hmore : ∀ id g, excused id g → more id g) : m.CoherentBut more :=
  { h with inputs_survive := fun hl g hg => (h.inputs_survive hl g hg).imp_right (hmore _ g) }

theorem CoherentBut.not_mem_of_dissolved (h : m.CoherentBut excused) {g : GroupId} {x : Group σ}
    (hx : m.Stores g x) (hg : m.find g ≠ g) : x.members = [] := by
  rw [List.eq_nil_iff_forall_not_mem]
  intro id hid
  obtain ⟨e, -, he⟩ := (h.members_iff hx id).1 hid
  exact hg (he ▸ m.find_find e.group)

end

theorem Coherent.input_survives {m : Memo σ κ} (h : m.Coherent) {id : ExprId} {e : MemoExpr} (he : m.Live id e)
    {g : GroupId} (hg : g ∈ e.inputs) : m.Survives g :=
  (h.inputs_survive he g hg).resolve_right not_false

theorem Live.unique {m : Memo σ κ} {id : ExprId} {e f : MemoExpr} (he : m.Live id e) (hf : m.Live id f) :
    e = f :=
  Option.some.inj (he.1.symm.trans hf.1)

theorem not_live_empty {verify : Bool} {limit : Option Nat} {id : ExprId} {e : MemoExpr} :
    ¬ (empty verify limit : Memo σ κ).Live id e := by
  simp [Live, expr?, empty]

theorem not_stores_empty {verify : Bool} {limit : Option Nat} {g : GroupId} {x : Group σ} :
    ¬ (empty verify limit : Memo σ κ).Stores g x := by
  simp [empty]

theorem wellFormed_empty (verify : Bool) (limit : Option Nat) : (empty verify limit : Memo σ κ).WellFormed where
  coherent :=
    { links_size := rfl
      inputs_survive := fun h => absurd h not_live_empty
      index_iff := fun k id =>
        ⟨fun h => (by cases h), fun ⟨_, h, _⟩ => absurd h not_live_empty⟩
      members_iff := fun h => absurd h not_stores_empty
      members_nodup := fun h => absurd h not_stores_empty
      group_known := fun h => by simp [expr?, empty] at h
      winners_nil := fun h => absurd h not_stores_empty
      producers_survive := fun h => by cases h
      index_rows := fun r hr => by cases hr
      arity := fun h => by simp [expr?, empty] at h }
  nonempty := fun h => absurd h not_stores_empty

/-- What matters of an expression here: all but the marks of the search. -/
def exprShape (e : MemoExpr) : GroupId × Operator × List GroupId × Bool := (e.group, e.op, e.inputs, e.removed)

theorem exprShape_eq_iff (e f : MemoExpr) : exprShape e = exprShape f ↔
    e.group = f.group ∧ e.op = f.op ∧ e.inputs = f.inputs ∧ e.removed = f.removed := by
  simp only [exprShape, Prod.mk.injEq]

/-- What matters of a group here. -/
def groupShape (x : Group σ) : List ExprId × LogicalProperties := (x.members, x.logical)

/-- The second memo differs from the first one in marks, contexts and winners of surviving groups only. -/
structure SameShape (m n : Memo σ κ) : Prop where
  links : n.links = m.links
  index : n.index = m.index
  producers : n.cteProducers = m.cteProducers
  verify : n.verify = m.verify
  limit : n.limit = m.limit
  exprs : n.exprs.map exprShape = m.exprs.map exprShape
  groups : n.groups.map groupShape = m.groups.map groupShape
  winners : ∀ {g x y}, m.Stores g x → n.Stores g y → m.find g ≠ g → y.winners = x.winners

namespace SameShape

variable {m n : Memo σ κ}

theorem find (h : SameShape m n) (g : GroupId) : n.find g = m.find g := find_of_links_eq h.links g

theorem length_groups (h : SameShape m n) : n.groups.length = m.groups.length := by
  simpa only [List.length_map] using congrArg List.length h.groups

theorem length_exprs (h : SameShape m n) : n.exprs.length = m.exprs.length := by
  simpa only [List.length_map] using congrArg List.length h.exprs

theorem survives_iff (h : SameShape m n) (g : GroupId) : n.Survives g ↔ m.Survives g := by
  unfold Survives Knows
  rw [h.find, h.length_groups]

theorem expr_back (h : SameShape m n) {id : ExprId} {e : MemoExpr} (he : n.expr? id = some e) :
    ∃ f, m.expr? id = some f ∧ exprShape e = exprShape f := by
  have hs := congrArg (fun l => l[id.index]?) h.exprs
  simp only [List.getElem?_map] at hs
  rw [show n.exprs[id.index]? = some e from he] at hs
  obtain ⟨f, hf, hef⟩ := Option.map_eq_some_iff.1 hs.symm
  exact ⟨f, hf, hef.symm⟩

theorem group_back (h : SameShape m n) {g : GroupId} {y : Group σ} (hy : n.Stores g y) :
    ∃ x, m.Stores g x ∧ y.members = x.members ∧ y.logical = x.logical := by
  have hs := congrArg (fun l => l[g.index]?) h.groups
  simp only [List.getElem?_map] at hs
  rw [hy] at hs
  obtain ⟨x, hx, hxy⟩ := Option.map_eq_some_iff.1 hs.symm
  obtain ⟨hm, hl⟩ := Prod.mk.inj hxy
  exact ⟨x, hx, hm.symm, hl.symm⟩

theorem symm_exprs (h : SameShape m n) {id : ExprId} {f : MemoExpr} (hf : m.expr? id = some f) :
    ∃ e, n.expr? id = some e ∧ exprShape e = exprShape f := by
  have hs := congrArg (fun l => l[id.index]?) h.exprs
  simp only [List.getElem?_map] at hs
  rw [show m.exprs[id.index]? = some f from hf] at hs
  exact Option.map_eq_some_iff.1 hs

theorem exists_live_iff (h : SameShape m n) (id : ExprId) (p : GroupId → Operator → List GroupId → Prop) :
    (∃ e, n.Live id e ∧ p e.group e.op e.inputs) ↔ ∃ f, m.Live id f ∧ p f.group f.op f.inputs := by
  constructor
  · rintro ⟨e, ⟨he, hr⟩, hp⟩
    obtain ⟨f, hf, hef⟩ := h.expr_back he
    obtain ⟨hg, ho, hi, hr'⟩ := (exprShape_eq_iff e f).1 hef
    exact ⟨f, ⟨hf, hr' ▸ hr⟩, by rwa [hg, ho, hi] at hp⟩
  · rintro ⟨f, ⟨hf, hr⟩, hp⟩
    obtain ⟨e, he, hef⟩ := h.symm_exprs hf
    obtain ⟨hg, ho, hi, hr'⟩ := (exprShape_eq_iff e f).1 hef
    exact ⟨e, ⟨he, hr'.trans hr⟩, by rwa [hg, ho, hi]⟩

theorem coherent (h : SameShape m n) (c : m.Coherent) : n.Coherent where
  links_size := by rw [h.links, c.links_size, h.length_groups]
  inputs_survive := by
    intro id e he g hg
    obtain ⟨f, hf, hgf⟩ := (h.exists_live_iff id (fun _ _ inputs => g ∈ inputs)).1 ⟨e, he, hg⟩
    exact (c.inputs_survive hf g hgf).imp_left (h.survives_iff g).2
  index_iff k id := by
    rw [h.index, c.index_iff k id]
    exact (h.exists_live_iff id (fun _ op inputs => ExprKey.mk op inputs = k)).symm
  members_iff := by
    intro g y hy id
    obtain ⟨x, hx, hm, -⟩ := h.group_back hy
    rw [hm, c.members_iff hx id]
    simp only [h.find]
    exact (h.exists_live_iff id (fun group _ _ => m.find group = g)).symm
  members_nodup := by
    intro g y hy
    obtain ⟨x, hx, hm, -⟩ := h.group_back hy
    exact hm ▸ c.members_nodup hx
  group_known := by
    intro id e he
    obtain ⟨f, hf, hef⟩ := h.expr_back he
    have hg : e.group = f.group := (Prod.mk.inj hef).1
    unfold Knows
    rw [hg, h.length_groups]
    exact c.group_known hf
  winners_nil := by
    intro g y hy hg
    rw [h.find] at hg
    obtain ⟨x, hx, -⟩ := h.group_back hy
    rw [h.winners hx hy hg, c.winners_nil hx hg]
  producers_survive := by
    intro cte g hg
    rw [h.producers] at hg
    exact (h.survives_iff g).2 (c.producers_survive hg)
  index_rows := by
    intro r hr
    rw [h.index] at hr
    rw [h.length_exprs]
    exact c.index_rows r hr
  arity := by
    intro id e he k hk
    obtain ⟨f, hf, hef⟩ := h.expr_back he
    obtain ⟨-, ho, hi, -⟩ := (exprShape_eq_iff e f).1 hef
    rw [hi]
    exact c.arity hf k (ho ▸ hk)

theorem wellFormed (h : SameShape m n) (w : m.WellFormed) : n.WellFormed where
  coherent := h.coherent w.coherent
  nonempty := by
    intro g y hy hg
    obtain ⟨x, hx, hm, -⟩ := h.group_back hy
    rw [hm]
    exact w.nonempty hx (h.find g ▸ hg)

end SameShape

end Memo
end Cascade
