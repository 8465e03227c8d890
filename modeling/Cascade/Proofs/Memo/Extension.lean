import Cascade.Proofs.Memo.Contexts
import Cascade.Proofs.Memo.Representation

/-!
How a memo may change. Groups are merged and never parted, their logical properties stay, expressions
keep their operators, and their groups and inputs up to merges, and no place for a context is written
twice (`Extends`). Insertions also bring no new winners (`Inherits`). They keep the producers of common table
expressions, up to merges, and so all that properties are derived from (`Carries`).
-/

namespace Cascade

variable {σ κ : Type}

/-- The second group has the marks of the first one. -/
structure Group.Marks (x y : Group σ) : Prop where
  explored : x.explored = true → y.explored = true
  implemented : x.implemented = true → y.implemented = true
  optimized : ∀ {r}, r ∈ x.optimized → r ∈ y.optimized

/-- The second expression has the marks of the first one, and no other rules were applied to it. -/
structure MemoExpr.Marks (e f : MemoExpr) : Prop where
  explored : e.explored = true → f.explored = true
  implemented : e.implemented = true → f.implemented = true
  optimized : ∀ {r}, r ∈ e.optimized → r ∈ f.optimized
  applied : f.applied = e.applied

theorem Group.Marks.refl (x : Group σ) : x.Marks x := ⟨id, id, id⟩

theorem MemoExpr.Marks.refl (e : MemoExpr) : e.Marks e := ⟨id, id, id, rfl⟩

theorem Group.Marks.trans {x y z : Group σ} (h : x.Marks y) (k : y.Marks z) : x.Marks z :=
  ⟨fun hm => k.explored (h.explored hm), fun hm => k.implemented (h.implemented hm), fun hm => k.optimized (h.optimized hm)⟩

theorem MemoExpr.Marks.trans {e f g : MemoExpr} (h : e.Marks f) (k : f.Marks g) : e.Marks g :=
  ⟨fun hm => k.explored (h.explored hm), fun hm => k.implemented (h.implemented hm), fun hm => k.optimized (h.optimized hm),
    k.applied.trans h.applied⟩

namespace Memo

/-- The second memo knows all the first one does. -/
structure Extends (m n : Memo σ κ) : Prop where
  find : ∀ {g h}, m.find g = m.find h → n.find g = n.find h
  groups : ∀ {g x}, m.group? g = some x → ∃ y, n.group? g = some y ∧ y.logical = x.logical
  exprs : ∀ {id e}, m.expr? id = some e → ∃ f, n.expr? id = some f ∧ f.op = e.op ∧
    n.find f.group = n.find e.group ∧ f.inputs.map n.find = e.inputs.map n.find
  slots_le : m.contexts.slots.length ≤ n.contexts.slots.length
  contexts : ∀ {id c}, n.contexts.get id = .ok c → id.index < m.contexts.slots.length →
    m.contexts.get id = .ok c

/-- The second memo moreover has its winners from groups of the first one. -/
structure Inherits (m n : Memo σ κ) : Prop extends Extends m n where
  winners : ∀ {g y}, n.Stores g y → ∀ w ∈ y.winners.rows, ∃ h x, m.Stores h x ∧ w ∈ x.winners.rows ∧
    n.find h = n.find g
  length_eq : n.contexts.slots.length = m.contexts.slots.length

/-- The second memo has all of the first one that properties are derived from, up to merges, and compares properties
just if the first one does. -/
structure Carries (m n : Memo σ κ) : Prop extends Extends m n where
  verify_eq : n.verify = m.verify
  producers : ∀ {cte g}, m.cteProducer? cte = some g → n.cteProducer? cte = some (n.find g)

/-- The second memo has no marks but those of the first one, and winners where the first one has them. -/
structure Fades (m n : Memo σ κ) : Prop where
  groups : ∀ {g x y}, m.group? g = some x → n.group? g = some y →
    y.Marks x ∧ ∀ r, x.winners.contains r = true → y.winners.contains r = true
  exprs : ∀ {id e f}, m.expr? id = some e → n.expr? id = some f → f.Marks e

variable {m n o : Memo σ κ}

theorem Extends.refl (m : Memo σ κ) : Extends m m where
  find h := h
  groups hx := ⟨_, hx, rfl⟩
  exprs he := ⟨_, he, rfl, rfl, rfl⟩
  slots_le := Nat.le_refl _
  contexts hc _ := hc

theorem Extends.map_find (h : Extends m n) {l r : List GroupId} (hlr : l.map m.find = r.map m.find) :
    l.map n.find = r.map n.find := by
  have hfind : ∀ g, n.find (m.find g) = n.find g := fun g => h.find (m.find_find g)
  have hmap : ∀ l : List GroupId, l.map n.find = (l.map m.find).map n.find := fun l => by
    rw [List.map_map]
    exact List.map_congr_left fun g _ => (hfind g).symm
  rw [hmap l, hmap r, hlr]

theorem Extends.trans (h : Extends m n) (k : Extends n o) : Extends m o where
  find hgh := k.find (h.find hgh)
  groups hx := by
    obtain ⟨y, hy, hxy⟩ := h.groups hx
    obtain ⟨z, hz, hyz⟩ := k.groups hy
    exact ⟨z, hz, hyz.trans hxy⟩
  exprs he := by
    obtain ⟨f, hf, hop, hgroup, hinputs⟩ := h.exprs he
    obtain ⟨f', hf', hop', hgroup', hinputs'⟩ := k.exprs hf
    exact ⟨f', hf', hop'.trans hop, hgroup'.trans (k.find hgroup), hinputs'.trans (k.map_find hinputs)⟩
  slots_le := Nat.le_trans h.slots_le k.slots_le
  contexts hc hlt := h.contexts (k.contexts hc (Nat.lt_of_lt_of_le hlt h.slots_le)) hlt

theorem Fades.refl (m : Memo σ κ) : Fades m m where
  groups hx hy := Option.some.inj (hx.symm.trans hy) ▸ ⟨.refl _, fun _ => id⟩
  exprs he hf := Option.some.inj (he.symm.trans hf) ▸ .refl _

theorem Fades.trans (h : Fades m n) (hmn : Extends m n) (k : Fades n o) : Fades m o where
  groups hx hz := by
    obtain ⟨y, hy, -⟩ := hmn.groups hx
    obtain ⟨hyx, hwinners⟩ := h.groups hx hy
    obtain ⟨hzy, hwinners'⟩ := k.groups hy hz
    exact ⟨hzy.trans hyx, fun r hr => hwinners' r (hwinners r hr)⟩
  exprs he hg := by
    obtain ⟨f, hf, -⟩ := hmn.exprs he
    exact (k.exprs hf hg).trans (h.exprs he hf)

theorem Inherits.refl (m : Memo σ κ) : Inherits m m where
  toExtends := .refl m
  winners hx _ hw := ⟨_, _, hx, hw, rfl⟩
  length_eq := rfl

theorem Inherits.trans (h : Inherits m n) (k : Inherits n o) : Inherits m o where
  toExtends := h.toExtends.trans k.toExtends
  winners hz w hw := by
    obtain ⟨i, y, hy, hw, hi⟩ := k.winners hz w hw
    obtain ⟨j, x, hx, hw, hj⟩ := h.winners hy w hw
    exact ⟨j, x, hx, hw, (k.find hj).trans hi⟩
  length_eq := k.length_eq.trans h.length_eq

/-- What leaves the producers alone carries them. -/
theorem Extends.carries (h : Extends m n) (hverify : n.verify = m.verify)
    (hproducers : ∀ {cte g}, m.cteProducers.get? cte = some g → n.cteProducers.get? cte = some g) : Carries m n where
  toExtends := h
  verify_eq := hverify
  producers := by
    intro cte g hg
    obtain ⟨k, hk, rfl⟩ := Option.map_eq_some_iff.1 hg
    refine (congrArg (Option.map n.find) (hproducers hk)).trans (congrArg some ?_)
    exact h.find (m.find_find k).symm

theorem Carries.refl (m : Memo σ κ) : Carries m m := (Extends.refl m).carries rfl id

theorem Carries.trans (h : Carries m n) (k : Carries n o) : Carries m o where
  toExtends := h.toExtends.trans k.toExtends
  verify_eq := k.verify_eq.trans h.verify_eq
  producers hg := by
    rw [k.producers (h.producers hg)]
    exact congrArg some (k.find (n.find_find _))

end Memo
end Cascade
