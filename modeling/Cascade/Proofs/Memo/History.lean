import Cascade.Proofs.Memo.Frame
import Cascade.Proofs.Memo.Insertion

/-!
What is true of every memo that operations can bring about, in any order and number: it agrees with
itself (`consistent_runAll`), a failed insertion has changed nothing (`insertion_atomic`), and a
successful one equates just the groups that congruence demands (`insertInto_congruence`).
-/

namespace Cascade.Memo

variable {σ κ : Type}

/-- The operations that change a memo. Properties need not come from the same source every time. -/
inductive Operation (σ κ : Type) where
  | insert (source : PropertySource σ) (e : Expr)
  | insertInto (source : PropertySource σ) (g : GroupId) (e : Expr)
  | addContext (c : CostContext κ)
  | pin (id : ContextId)
  | unpin (id : ContextId)
  | markApplied (e : ExprId) (r : RuleId)
  | markExprExplored (e : ExprId)
  | markExprImplemented (e : ExprId)
  | markExprOptimized (e : ExprId) (r : Required)
  | markGroupExplored (g : GroupId)
  | markGroupImplemented (g : GroupId)
  | markGroupOptimized (g : GroupId) (r : Required)
  | resetSearch

/-- Where an insertion has properties from. -/
def Operation.source? : Operation σ κ → Option (PropertySource σ)
  | .insert source _ => some source
  | .insertInto source _ _ => some source
  | _ => none

/-- The parts of a memo agree with each other. -/
structure Consistent (m : Memo σ κ) : Prop where
  /-- the inputs of live expressions are surviving groups -/
  inputs_survive : ∀ {id e}, m.Live id e → ∀ g ∈ e.inputs, m.Survives g
  /-- no two live expressions are duplicates -/
  keys_distinct : ∀ {i j x y}, m.Live i x → m.Live j y → x.op = y.op → x.inputs = y.inputs → i = j
  /-- just the keys of live expressions are indexed -/
  index_exact : ∀ k id, m.index.get? k = some id ↔ ∃ e, m.Live id e ∧ e.key = k
  /-- a live expression is a member of its group once -/
  member_once : ∀ {id e}, m.Live id e → ∃ x, m.Stores (m.find e.group) x ∧ x.members.count id = 1
  /-- and of no other group -/
  member_only : ∀ {id e}, m.Live id e → ∀ {g x}, m.Stores g x → id ∈ x.members → g = m.find e.group
  /-- removed expressions and unknown ones are members of no group -/
  member_live : ∀ {g x}, m.Stores g x → ∀ id ∈ x.members, ∃ e, m.Live id e
  dissolved_empty : ∀ {g x}, m.Stores g x → m.find g ≠ g → x.members = [] ∧ x.winners.rows = []
  surviving_nonempty : ∀ {g x}, m.Stores g x → m.find g = g → x.members ≠ []
  /-- a dissolved group is linked to a smaller one -/
  links_down : ∀ g, m.find g ≠ g → m.links.parent g.index < g.index
  find_survives : ∀ g, m.Knows g → m.Survives (m.find g)
  /-- the least group of a class stands for it -/
  find_least : ∀ g h, m.find g = m.find h → (m.find g).index ≤ h.index
  producers_survive : ∀ {cte g}, m.cteProducers.get? cte = some g → m.Survives g

theorem WellFormed.consistent {m : Memo σ κ} (w : m.WellFormed) : m.Consistent where
  inputs_survive he _ hg := w.coherent.input_survives he hg
  keys_distinct hx hy hop hinputs := w.coherent.eq_of_key hx hy (by rw [MemoExpr.key, MemoExpr.key, hop, hinputs])
  index_exact := w.coherent.index_iff
  member_once he := by
    obtain ⟨x, hx⟩ := exists_content (knows_find (w.coherent.group_known he.1))
    have hmem := (w.coherent.members_iff hx _).2 ⟨_, he, rfl⟩
    exact ⟨x, hx, by rw [(w.coherent.members_nodup hx).count, if_pos hmem]⟩
  member_only he g x hx hid := by
    obtain ⟨e', he', hg⟩ := (w.coherent.members_iff hx _).1 hid
    rw [he.unique he', hg]
  member_live hx id hid := ((w.coherent.members_iff hx id).1 hid).imp fun _ h => h.1
  dissolved_empty hx hg := ⟨w.coherent.not_mem_of_dissolved hx hg, w.coherent.winners_nil hx hg⟩
  surviving_nonempty := w.nonempty
  links_down g hg := by
    refine Nat.lt_of_le_of_ne (m.links.parent_le g.index) fun h => hg ?_
    exact congrArg GroupId.mk (m.links.find_of_parent_eq h)
  find_survives _ := survives_find
  find_least g h hgh := m.links.find_le_of_same (congrArg GroupId.index hgh)
  producers_survive := w.coherent.producers_survive

/-- The memo an operation leaves; one that fails changes nothing. -/
def settled (m : Memo σ κ) : Except PlanError (Memo σ κ) → Memo σ κ
  | .ok n => n
  | .error _ => m

theorem sameShape_settled {m : Memo σ κ} {r : Except PlanError (Memo σ κ)} (h : ∀ n, r = .ok n → SameShape m n) :
    SameShape m (m.settled r) := by
  cases r with
  | ok n => exact h n rfl
  | error e => exact .refl m

variable [LT κ] [DecidableLT κ]

/-- The memo after an operation, also after one that fails. -/
def apply (m : Memo σ κ) : Operation σ κ → Memo σ κ
  | .insert source e => (m.insert source e).2
  | .insertInto source g e => (m.insertInto source g e).2
  | .addContext c => m.settled ((m.addContext c).map Prod.snd)
  | .pin id => m.settled (m.pin id)
  | .unpin id => m.unpin id
  | .markApplied e r => m.markApplied e r
  | .markExprExplored e => m.markExprExplored e
  | .markExprImplemented e => m.markExprImplemented e
  | .markExprOptimized e r => m.markExprOptimized e r
  | .markGroupExplored g => m.markGroupExplored g
  | .markGroupImplemented g => m.markGroupImplemented g
  | .markGroupOptimized g r => m.markGroupOptimized g r
  | .resetSearch => m.resetSearch

/-- The memo after a sequence of operations on an empty one. -/
def runAll (verify : Bool) (limit : Option Nat) (ops : List (Operation σ κ)) : Memo σ κ :=
  ops.foldl apply (empty verify limit)

section

variable {m : Memo σ κ}

/-- All but insertions leave the shape of the memo alone. -/
theorem sameShape_apply (m : Memo σ κ) {op : Operation σ κ} (h : op.source? = none) : SameShape m (m.apply op) := by
  cases op with
  | insert source e => cases h
  | insertInto source g e => cases h
  | addContext c =>
    refine sameShape_settled fun n hn => ?_
    cases hadd : m.addContext c with
    | error e =>
      rw [hadd] at hn
      cases hn
    | ok r =>
      rw [hadd] at hn
      exact Except.ok.inj hn ▸ sameShape_addContext hadd
  | pin id => exact sameShape_settled fun _ => sameShape_pin
  | unpin id => exact m.sameShape_unpin id
  | markApplied e r => exact sameShape_modifyExpr m e fun _ => rfl
  | markExprExplored e => exact sameShape_modifyExpr m e fun _ => rfl
  | markExprImplemented e => exact sameShape_modifyExpr m e fun _ => rfl
  | markExprOptimized e r => exact sameShape_modifyExpr m e fun _ => rfl
  | markGroupExplored g => exact sameShape_modifyGroup m _ (fun _ => rfl) (.inr fun _ => rfl)
  | markGroupImplemented g => exact sameShape_modifyGroup m _ (fun _ => rfl) (.inr fun _ => rfl)
  | markGroupOptimized g r => exact sameShape_modifyGroup m _ (fun _ => rfl) (.inr fun _ => rfl)
  | resetSearch => exact m.sameShape_resetSearch

theorem wellFormed_apply (w : m.WellFormed) (op : Operation σ κ) : (m.apply op).WellFormed := by
  cases op with
  | insert source e => exact (inherits_insertAt source e w m.target_none).2
  | insertInto source g e => exact (inherits_insertAt source e w (m.target_find g)).2
  | _ => exact (m.sameShape_apply rfl).wellFormed w

theorem wellFormed_runAll (verify : Bool) (limit : Option Nat) (ops : List (Operation σ κ)) :
    (runAll verify limit ops).WellFormed := by
  unfold runAll
  have hstart : (empty verify limit : Memo σ κ).WellFormed := wellFormed_empty verify limit
  generalize empty verify limit = m at hstart
  induction ops generalizing m with
  | nil => exact hstart
  | cons op ops ih => exact ih _ (wellFormed_apply hstart op)

end

section

def constants (rows : Nat) : Expr := .node (.logical (.values ⟨[], .replicate rows []⟩)) []

def firstOf (e : Expr) : Expr := .node (.logical (.limit ⟨0, some 1, .none⟩)) [e]

/-- Properties that tell trees apart by the rows of a table of constants, or not at all. -/
def rowSource (exact : Bool) : PropertySource Unit where
  logical op _ _ :=
    match op with
    | .values v => .ok { LogicalProperties.empty with
        maxCardinality := .bounded (if exact then v.rows.length else 0) }
    | _ => .ok .empty
  statistics _ _ _ := .ok ()

/-- Groups 0 and 2 of constants, and groups 1 and 3 of their first rows. -/
def firstRows (exact : Bool) : List (Operation Unit Nat) :=
  [.insert (rowSource exact) (firstOf (constants 0)), .insert (rowSource exact) (firstOf (constants 1))]

end

section

variable (verify : Bool) (limit : Option Nat) (ops : List (Operation σ κ)) (source : PropertySource σ)

/-- After any operations the parts of the memo agree. -/
theorem consistent_runAll : (runAll verify limit ops).Consistent :=
  (wellFormed_runAll verify limit ops).consistent

/-- After any operations, an insertion that fails leaves the memo as it was, and it does not fail any
more once the dry run has accepted the merges. -/
theorem insertion_atomic (g : GroupId) (e : Expr) :
    (∀ err after, (runAll verify limit ops).insert source e = (.error err, after) →
      after = runAll verify limit ops) ∧
    (∀ err after, (runAll verify limit ops).insertInto source g e = (.error err, after) →
      after = runAll verify limit ops) ∧
    ∀ target ∈ [none, some ((runAll verify limit ops).find g)], ∀ placed s,
      (copyIn source target 0 e : InsertM σ κ Placed).run ⟨runAll verify limit ops, [], []⟩ =
        (.ok placed, s) → s.memo.checkMerges s.merges = .ok () → ∃ n, s.memo.mergeAll s.merges = (.ok (), n) := by
  have w := wellFormed_runAll verify limit ops
  generalize runAll verify limit ops = m at w
  refine ⟨fun err after h => ?_, fun err after h => eq_of_insertAt_error source e w (m.target_find g) h, ?_⟩
  · unfold insert at h
    cases hat : m.insertAt source none e with
    | mk r n =>
      rw [hat] at h
      cases r with
      | ok placed => cases congrArg Prod.fst h
      | error err' => exact (congrArg Prod.snd h).symm.trans (eq_of_insertAt_error source e w m.target_none hat)
  · intro target htarget placed s hrun hcheck
    have htarget : ∀ t, target = some t → m.find t = t := by
      rcases List.mem_cons.1 htarget with rfl | htarget
      · exact m.target_none
      · rw [List.mem_singleton.1 htarget]
        exact m.target_find g
    rcases copyIn_cases source e w htarget with
      ⟨err, s', hrun', -⟩ | ⟨placed', s', hrun', hcopy, hplaced, hmerges⟩
    · rw [hrun'] at hrun
      cases congrArg Prod.fst hrun
    · rw [hrun'] at hrun
      cases hrun
      obtain ⟨n, hn, -⟩ := mergeAll_of_checkMerges hcopy hplaced hmerges hcheck
      exact ⟨n, hn⟩

/-- Groups of different constants are not merged. -/
theorem insertion_atomic_constants : ∃ err after,
    (runAll false none (firstRows true)).insertInto (rowSource true) ⟨0⟩ (constants 1) = (.error err, after) ∧
      after = runAll false none (firstRows true) := by
  have hok : ((runAll false none (firstRows true)).insertInto (rowSource true) ⟨0⟩ (constants 1)).1.isOk = false := by
    decide +kernel
  cases h : (runAll false none (firstRows true)).insertInto (rowSource true) ⟨0⟩ (constants 1) with
  | mk r after =>
    rw [h] at hok
    cases r with
    | ok placed => cases hok
    | error err =>
      exact ⟨err, after, rfl, (insertion_atomic false none (firstRows true) (rowSource true) ⟨0⟩ (constants 1)).2.1
        err after h⟩

/-- After any operations, a successful insertion into a group equates just what the least congruence does
that holds what was equal before and the requested merge, over the expressions with the tree among them.
The dry run accepts merges just if they bring together no groups with different logical properties, so it
does not matter how they are ordered. -/
theorem insertInto_congruence (g : GroupId) (e : Expr) :
    (∀ placed after, (runAll verify limit ops).insertInto source g e = (.ok placed, after) →
      ∃ found s,
        (copyIn source (some ((runAll verify limit ops).find g)) 0 e : InsertM σ κ Placed).run
          ⟨runAll verify limit ops, [], []⟩ = (.ok found, s) ∧
        (∀ a b, s.memo.Same a b ↔ (runAll verify limit ops).Same a b) ∧
        (∀ id x, (runAll verify limit ops).Live id x → s.memo.Live id x) ∧
        s.merges = requested (some ((runAll verify limit ops).find g)) found.group ∧
        s.memo.Congruence s.merges after.Same ∧
        ∀ R, s.memo.Congruence s.merges R → ∀ a b, after.Same a b → R a b) ∧
    ∀ found s,
      (copyIn source (some ((runAll verify limit ops).find g)) 0 e : InsertM σ κ Placed).run
        ⟨runAll verify limit ops, [], []⟩ = (.ok found, s) →
      ((runAll verify limit ops).Knows g → s.memo.KnowsAll s.merges) ∧
      ∀ q, s.memo.KnowsAll q → (s.memo.checkMerges q = .ok () ↔ s.memo.Compatible q) ∧
        ∀ r, (∀ p, p ∈ r ↔ p ∈ q) → (s.memo.checkMerges r = .ok () ↔ s.memo.checkMerges q = .ok ()) := by
  have w := wellFormed_runAll verify limit ops
  generalize runAll verify limit ops = m at w
  refine ⟨fun placed after h => ?_, fun found s hrun => ?_⟩
  · rcases insertAt_cases source e w (m.target_find g) with
      ⟨err, heq⟩ | ⟨found, s, n, hrun, heq, hn⟩
    · cases congrArg Prod.fst (heq.symm.trans h)
    · have hafter : n = after := congrArg Prod.snd (heq.symm.trans h)
      subst hafter
      have hsame : ∀ a b, s.memo.Same a b ↔ m.Same a b := by
        intro a b
        unfold Same
        rw [hn.copying.find_eq, hn.copying.find_eq]
      have hlive : ∀ id x, m.Live id x → s.memo.Live id x := fun id x hx => ⟨hn.copying.exprs_kept hx.1, hx.2⟩
      have hclosed := (hn.progress.congruence_iff n.Same).2 hn.wellFormed.coherent.same_congruence
      exact ⟨found, s, hrun, hsame, hlive, hn.merges_eq, hclosed,
        fun R hR a b hab => ((hn.progress.congruence_iff R).1 hR).found hab⟩
  · rcases copyIn_cases source e w (m.target_find g) with
      ⟨err, s', hrun', -⟩ | ⟨found', s', hrun', hcopy, hplaced, hmerges⟩
    · cases congrArg Prod.fst (hrun'.symm.trans hrun)
    · cases hrun'.symm.trans hrun
      have hc := hcopy.wellFormed.coherent
      refine ⟨fun hg p hp => ?_, fun q hq => ⟨checkMerges_ok_iff hc hq, fun r hr => ?_⟩⟩
      · obtain ⟨hfirst, hsecond⟩ := mem_requested (hmerges ▸ hp)
        have hknown : m.Knows (m.find g) := knows_find hg
        rw [← Option.some.inj hfirst, hsecond]
        exact ⟨Nat.lt_of_lt_of_le hknown hcopy.groups_le, hplaced.1⟩
      · rw [checkMerges_ok_iff hc hq, checkMerges_ok_iff hc fun p hp => hq p ((hr p).1 hp)]
        exact compatible_congr hr

/-- A merge of groups of constants has the groups of their first rows merged. -/
theorem insertInto_congruence_constants : ∃ placed after,
    (runAll false none (firstRows false)).insertInto (rowSource false) ⟨0⟩ (constants 1) = (.ok placed, after) ∧
      ¬ (runAll false none (firstRows false)).Same ⟨1⟩ ⟨3⟩ ∧ after.Same ⟨1⟩ ⟨3⟩ ∧
      ∃ s : Insertion Unit Nat, s.memo.Congruence s.merges after.Same ∧
        ∀ R, s.memo.Congruence s.merges R → R ⟨1⟩ ⟨3⟩ := by
  have hok : ((runAll false none (firstRows false)).insertInto (rowSource false) ⟨0⟩ (constants 1)).1.isOk = true ∧
      (runAll false none (firstRows false)).find ⟨1⟩ ≠ (runAll false none (firstRows false)).find ⟨3⟩ ∧
      ((runAll false none (firstRows false)).insertInto (rowSource false) ⟨0⟩ (constants 1)).2.find ⟨1⟩ =
        ((runAll false none (firstRows false)).insertInto (rowSource false) ⟨0⟩ (constants 1)).2.find ⟨3⟩ := by
    decide +kernel
  cases h : (runAll false none (firstRows false)).insertInto (rowSource false) ⟨0⟩ (constants 1) with
  | mk r after =>
    rw [h] at hok
    obtain ⟨hok, hbefore, hafter⟩ := hok
    cases r with
    | error err => cases hok
    | ok placed =>
      obtain ⟨-, s, -, -, -, -, hclosed, hleast⟩ :=
        (insertInto_congruence false none (firstRows false) (rowSource false) ⟨0⟩ (constants 1)).1 placed after h
      exact ⟨placed, after, rfl, hbefore, hafter, s, hclosed, fun R hR => hleast R hR ⟨1⟩ ⟨3⟩ hafter⟩

end

end Cascade.Memo
