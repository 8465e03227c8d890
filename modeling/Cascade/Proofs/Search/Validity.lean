import Cascade.Proofs.Memo.Insertion
import Cascade.Proofs.Memo.Winners
import Cascade.Proofs.Search.Enforcing

/-!
What the search keeps true of its memo. Every context is a way to compute its expression that one request
of the operator asks for, and every winner is a context of its group for its requirement (`Sound`). As
contexts name their inputs by numbers that are not used twice, this outlives merges, new winners and
contexts that are given up (`Extends`).
-/

namespace Cascade

open Search

variable {σ κ : Type}

namespace Memo

variable {m n : Memo σ κ}

theorem group_logical_ok_iff (m : Memo σ κ) (g : GroupId) (l : LogicalProperties) :
    (m.group g).map Group.logical = .ok l ↔ m.logical? g = some l := by
  unfold logical? group
  cases m.group? g with
  | none => simp [Except.map]
  | some x => simp [Except.map]

theorem getElem?_of_map_find {l r : List GroupId} (h : l.map m.find = r.map m.find) {i : Nat} {g : GroupId}
    (hg : r[i]? = some g) : ∃ k, l[i]? = some k ∧ m.find k = m.find g := by
  have hi := congrArg (fun l => l[i]?) h
  simp only [List.getElem?_map] at hi
  rw [hg, Option.map_some] at hi
  exact Option.map_eq_some_iff.1 hi

/-- The number of a context of a group for a requirement, as long as that context is there. -/
def Offered (m : Memo σ κ) (id : ContextId) (g : GroupId) (r : Required) : Prop :=
  id.index < m.contexts.slots.length ∧ ∀ c, m.contexts.get id = .ok c →
    c.required = r ∧ ∃ e, m.expr? c.expr = some e ∧ m.find e.group = m.find g

theorem Offered.mono (h : Extends m n) {id : ContextId} {g : GroupId} {r : Required} (ho : m.Offered id g r) :
    n.Offered id g r := by
  refine ⟨Nat.lt_of_lt_of_le ho.1 h.slots_le, fun c hc => ?_⟩
  obtain ⟨hr, e, he, hg⟩ := ho.2 c (h.contexts hc ho.1)
  obtain ⟨f, hf, -, hgroup, -⟩ := h.exprs he
  exact ⟨hr, f, hf, hgroup.trans (h.find hg)⟩

theorem Offered.congr {id : ContextId} {g h : GroupId} {r : Required} (ho : m.Offered id g r)
    (hgh : m.find g = m.find h) : m.Offered id h r :=
  ⟨ho.1, fun c hc => ⟨(ho.2 c hc).1, (ho.2 c hc).2.imp fun _ he => ⟨he.1, he.2.trans hgh⟩⟩⟩

end Memo

open Memo

theorem position_ok_iff (m : Memo σ κ) (e : MemoExpr) (r : Required) (p : Position) : position m e r = .ok p ↔
    p.required = r ∧ m.logical? e.group = some p.logical ∧
      List.Forall₂ (fun g l => m.logical? g = some l) e.inputs p.inputs := by
  have hinputs : ∀ ls, e.inputs.mapM (fun g => (m.group g).map Group.logical) = .ok ls ↔
      List.Forall₂ (fun g l => m.logical? g = some l) e.inputs ls := fun ls => by
    simp only [← group_logical_ok_iff]
    exact ⟨forall₂_of_mapM_ok, mapM_ok_of_forall₂⟩
  rw [← hinputs, ← group_logical_ok_iff]
  unfold position
  cases m.group e.group with
  | error err =>
    refine ⟨fun h => ?_, fun h => ?_⟩
    · cases h
    · cases h.2.1
  | ok x =>
    cases e.inputs.mapM (fun g => (m.group g).map Group.logical) with
    | error err =>
      refine ⟨fun h => ?_, fun h => ?_⟩
      · cases h
      · cases h.2.2
    | ok ls =>
      refine ⟨fun h => ?_, fun h => ?_⟩
      · cases h
        exact ⟨rfl, rfl, rfl⟩
      · obtain ⟨required, logical, inputs⟩ := p
        obtain ⟨rfl, hl, hi⟩ := h
        change Except.ok (⟨required, x.logical, ls⟩ : Position) = _
        rw [show x.logical = logical from Except.ok.inj hl, show ls = inputs from Except.ok.inj hi]

theorem position_mono {m n : Memo σ κ} (h : Extends m n) {e f : MemoExpr} (hgroup : n.find f.group = n.find e.group)
    (hinputs : f.inputs.map n.find = e.inputs.map n.find) {r : Required} {p : Position}
    (hp : position m e r = .ok p) : position n f r = .ok p := by
  obtain ⟨hr, hl, hi⟩ := (position_ok_iff m e r p).1 hp
  refine (position_ok_iff n f r p).2 ⟨hr, (logical?_congr hgroup).trans (logical?_mono h hl), ?_⟩
  have hthrough : ∀ ls : List GroupId, List.Forall₂ (fun g l => n.logical? g = some l) ls p.inputs ↔
      List.Forall₂ (fun g l => n.logical? g = some l) (ls.map n.find) p.inputs := fun ls => by
    rw [List.forall₂_map_left_iff]
    simp only [logical?_congr (n.find_find _)]
  rw [hthrough, hinputs, ← hthrough]
  exact hi.imp fun _ _ hl => logical?_mono h hl

/-- Contexts were chosen for the first inputs of an expression, each as a request asks in view of what the
inputs before it provide. -/
structure Chosen (m : Memo σ κ) (e : MemoExpr) (op : PhysicalOp) (p : Position) (request : Nat)
    (inputs : List ContextId) (derived : List Derived) : Prop where
  length_eq : derived.length = inputs.length
  offered : ∀ {i : Nat} {id : ContextId}, inputs[i]? = some id → ∃ g r, e.inputs[i]? = some g ∧
    op.requiredInput p request i (derived.take i) = some r ∧ m.Offered id g r
  derived_eq : ∀ {i : Nat} {id : ContextId} {c : CostContext κ}, inputs[i]? = some id →
    m.contexts.get id = .ok c → derived[i]? = some c.derived

/-- A context is a way to compute an expression, with enforcers above it that make it meet what is
required. -/
structure ContextOf (m : Memo σ κ) (subset : Bool) (c : CostContext κ) (e : MemoExpr) (op : PhysicalOp)
    (p : Position) (derived : List Derived) : Prop where
  expr : m.expr? c.expr = some e
  op_eq : e.op = .physical op
  position : position m e c.required = .ok p
  request_lt : c.request < op.requestCount
  inputs_length : c.inputs.length = e.inputs.length
  chosen : Chosen m e op p c.request c.inputs derived
  derived_eq : c.exprDerived = op.derived p derived
  enforces : Enforces p c.exprDerived c.enforcers c.derived
  satisfies : c.derived.satisfies c.required p.logical.equivalences subset = true

/-- A context is a way to compute its expression. -/
def ValidContext (m : Memo σ κ) (subset : Bool) (c : CostContext κ) : Prop :=
  ∃ e op p derived, ContextOf m subset c e op p derived

section

variable {m n : Memo σ κ} {e : MemoExpr} {op : PhysicalOp} {p : Position} {request : Nat}

theorem chosen_nil : Chosen m e op p request [] [] where
  length_eq := rfl
  offered h := by cases h
  derived_eq h := by cases h

theorem Chosen.mono (h : Extends m n) {f : MemoExpr} (hinputs : f.inputs.map n.find = e.inputs.map n.find)
    {inputs : List ContextId} {derived : List Derived} (hc : Chosen m e op p request inputs derived) :
    Chosen n f op p request inputs derived where
  length_eq := hc.length_eq
  offered := by
    intro i id hi
    obtain ⟨g, r, hg, hr, ho⟩ := hc.offered hi
    obtain ⟨k, hk, hkg⟩ := getElem?_of_map_find hinputs hg
    exact ⟨k, r, hk, hr, (ho.mono h).congr hkg.symm⟩
  derived_eq := by
    intro i id c hi hget
    obtain ⟨g, r, -, -, ho⟩ := hc.offered hi
    exact hc.derived_eq hi (h.contexts hget ho.1)

theorem Chosen.append {inputs : List ContextId} {derived : List Derived}
    (hc : Chosen m e op p request inputs derived) {id : ContextId} {c : CostContext κ} {g : GroupId} {r : Required}
    (hg : e.inputs[inputs.length]? = some g) (hr : op.requiredInput p request inputs.length derived = some r)
    (ho : m.Offered id g r) (hget : m.contexts.get id = .ok c) :
    Chosen m e op p request (inputs ++ [id]) (derived ++ [c.derived]) where
  length_eq := by
    rw [List.length_append, List.length_append, hc.length_eq]
    rfl
  offered := by
    intro i k hi
    rcases getElem?_concat_cases hi with ⟨hlt, hi⟩ | ⟨rfl, rfl⟩
    · rw [List.take_append_of_le_length (by rw [hc.length_eq]; omega)]
      exact hc.offered hi
    · have htake : (derived ++ [c.derived]).take inputs.length = derived := by
        rw [← hc.length_eq, List.take_left]
      rw [htake]
      exact ⟨g, r, hg, hr, ho⟩
  derived_eq := by
    intro i k d hi hd
    rcases getElem?_concat_cases hi with ⟨hlt, hi⟩ | ⟨rfl, rfl⟩
    · rw [List.getElem?_append_left (by rw [hc.length_eq]; omega)]
      exact hc.derived_eq hi hd
    · rw [← hc.length_eq, List.getElem?_concat_length, Except.ok.inj (hget.symm.trans hd)]

theorem Chosen.length_le {inputs : List ContextId} {derived : List Derived}
    (hc : Chosen m e op p request inputs derived) : inputs.length ≤ e.inputs.length := by
  by_contra hlt
  have hi : inputs[e.inputs.length]? = some inputs[e.inputs.length] := List.getElem?_eq_getElem (by omega)
  obtain ⟨g, r, hg, -⟩ := hc.offered hi
  have := (List.getElem?_eq_some_iff.1 hg).1
  omega

theorem ValidContext.mono (h : Extends m n) {subset : Bool} {c : CostContext κ} (hc : ValidContext m subset c) :
    ValidContext n subset c := by
  obtain ⟨e, op, p, derived, hc⟩ := hc
  obtain ⟨f, hf, hop, hgroup, hinputs⟩ := h.exprs hc.expr
  have hlength : f.inputs.length = e.inputs.length := by simpa using congrArg List.length hinputs
  exact ⟨f, op, p, derived,
    { hc with
      expr := hf
      op_eq := hop.trans hc.op_eq
      position := position_mono h hgroup hinputs hc.position
      inputs_length := hc.inputs_length.trans hlength.symm
      chosen := hc.chosen.mono h hinputs }⟩

end

namespace Memo

variable {m n : Memo σ κ} {subset : Bool}

/-- All contexts are ways to compute their expressions, and all winners are contexts of their groups. -/
structure Sound (m : Memo σ κ) (subset : Bool) : Prop where
  wellFormed : m.WellFormed
  contexts : ∀ {id c}, m.contexts.get id = .ok c → ValidContext m subset c
  winners : ∀ {g x}, m.Stores g x → ∀ w ∈ x.winners.rows, m.Offered w.2 g w.1

theorem sound_empty (verify : Bool) (limit : Option Nat) (subset : Bool) :
    (empty verify limit : Memo σ κ).Sound subset where
  wellFormed := wellFormed_empty verify limit
  contexts h := by cases h
  winners h := absurd h not_stores_empty

theorem Sound.inherits (h : m.Sound subset) (k : Inherits m n) (w : n.WellFormed) : n.Sound subset where
  wellFormed := w
  contexts := by
    intro id c hc
    have hlt : id.index < m.contexts.slots.length := k.length_eq ▸ ContextStore.lt_of_get_ok hc
    exact (h.contexts (k.contexts hc hlt)).mono k.toExtends
  winners := by
    intro g y hy w hw
    obtain ⟨i, x, hx, hw, hi⟩ := k.winners hy w hw
    exact ((h.winners hx w hw).mono k.toExtends).congr hi

theorem Sound.winner (h : m.Sound subset) {g : GroupId} {r : Required} {id : ContextId} {c : CostContext κ}
    (hw : m.winner? g r = some (id, c)) : m.contexts.get id = .ok c ∧ m.Offered id g r := by
  unfold winner? at hw
  simp only [Option.bind_eq_bind] at hw
  obtain ⟨x, hx, hw⟩ := Option.bind_eq_some_iff.1 hw
  obtain ⟨i, hi, hw⟩ := Option.bind_eq_some_iff.1 hw
  obtain ⟨slot, hslot, hw⟩ := Option.bind_eq_some_iff.1 hw
  obtain ⟨d, hd, hw⟩ := Option.bind_eq_some_iff.1 hw
  cases hw
  have hoffered := h.winners hx (r, id) (Lookup.mem_rows_of_get? hi)
  refine ⟨(ContextStore.get_ok_iff _ _ _).2 ?_, hoffered.congr (m.find_find g)⟩
  unfold ContextStore.context?
  rw [hslot, Option.bind_some, hd]

theorem Sound.addContext [LT κ] [DecidableLT κ] (h : m.Sound subset) {c : CostContext κ} (hc : ValidContext m subset c)
    {r : Option ContextId} (hadd : m.addContext c = .ok (r, n)) : n.Sound subset ∧ Extends m n := by
  have w : n.WellFormed := (sameShape_addContext hadd).wellFormed h.wellFormed
  obtain ⟨e, he, rfl | ⟨s, hs, rfl⟩⟩ := addContext_cases hadd
  · have k := m.inherits_contexts m.contexts.prunedTo_discard
    exact ⟨h.inherits k w, k.toExtends⟩
  · have k := extends_promoted (g := m.find e.group) hs
    have hnew : ∀ {id d}, s.get id = .ok d → m.contexts.get id = .ok d ∨ id = (m.contexts.add c).1 ∧ d = c :=
      fun hd => ContextStore.get_add (hs.get hd)
    refine ⟨⟨w, fun {id d} hd => ?_, fun {g y} hy row hrow => ?_⟩, k⟩
    · rcases hnew hd with hold | ⟨-, rfl⟩
      · exact (h.contexts hold).mono k
      · exact hc.mono k
    · obtain ⟨x, hx, rfl | ⟨rfl, rfl⟩⟩ := stores_promoted hy
      · exact (h.winners hx row hrow).mono k
      · rcases Lookup.mem_rows_set hrow with rfl | hrow
        -- the new winner: its number has not been used, so it can only be that of the added context
        · refine ⟨?_, fun d hd => ?_⟩
          · have hlen := hs.length_eq.trans (m.contexts.add_slots_length c)
            exact Nat.lt_of_lt_of_eq (Nat.lt_succ_self _) hlen.symm
          · rcases hnew hd with hold | ⟨-, rfl⟩
            · exact absurd (ContextStore.lt_of_get_ok hold) (Nat.lt_irrefl _)
            · exact ⟨rfl, e, he, (m.find_find e.group).symm⟩
        · exact (h.winners hx row hrow).mono k

end Memo
end Cascade
