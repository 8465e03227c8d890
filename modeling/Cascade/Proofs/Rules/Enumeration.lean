import Mathlib.Algebra.BigOperators.Ring.List
import Mathlib.Algebra.Ring.Nat
import Cascade.Proofs.Rules.Faithfulness

/-!
The enumeration of bindings. What a limit cuts off at some step comes after the first as many results, so a smaller limit
gives the first of the bindings that a larger one gives. If there are fewer than the limit, nothing was cut off: they are
all trees that match the pattern (`Memo.bindings_take`).
-/

namespace Cascade

namespace Memo

section

variable {ε α β γ : Type} {l L : Nat}

/-! Choices. -/

theorem take_flatMap_map {m n : Nat} (hm : l ≤ m) (hn : l ≤ n) (g : α → β → γ) (as : List α) (bs : List β) :
    ((as.take m).flatMap fun a => (bs.take n).map (g a)).take l = (as.flatMap fun a => bs.map (g a)).take l := by
  induction as generalizing l m with
  | nil => rw [List.take_nil, List.flatMap_nil, List.flatMap_nil]
  | cons a as ih =>
    cases m with
    | zero =>
      obtain rfl := Nat.le_zero.1 hm
      rw [List.take_zero, List.take_zero]
    | succ m =>
      rw [List.take_succ_cons, List.flatMap_cons, List.flatMap_cons, List.take_append, List.take_append, ← List.map_take,
        List.take_take, Nat.min_eq_left hn, List.map_take, List.length_map, List.length_map, List.length_take]
      congr 1
      by_cases hbs : bs.length ≤ n
      · rw [Nat.min_eq_right hbs]
        cases bs with
        | nil =>
          have hnone : ∀ xs : List α, (xs.flatMap fun a => ([] : List β).map (g a)) = [] := fun xs =>
            List.flatMap_eq_nil_iff.2 fun _ _ => rfl
          rw [List.take_nil, hnone, hnone]
        | cons b bs => exact ih (by rw [List.length_cons]; omega) (by omega)
      · rw [Nat.min_eq_left (by omega), Nat.sub_eq_zero_of_le hn, Nat.sub_eq_zero_of_le (by omega), List.take_zero,
          List.take_zero]

/-- The first pairs are made of the first members of both lists. -/
theorem take_flatMap_congr {as as' : List α} {bs bs' : List β} (has : as'.take l = as.take l)
    (hbs : bs'.take l = bs.take l) (g : α → β → γ) :
    (as'.flatMap fun a => bs'.map (g a)).take l = (as.flatMap fun a => bs.map (g a)).take l := by
  rw [← take_flatMap_map (Nat.le_refl l) (Nat.le_refl l) g as' bs', has, hbs,
    take_flatMap_map (Nat.le_refl l) (Nat.le_refl l)]

/-- All ways to choose one element of every list, in order. -/
def product (choices : List (List α)) : List (List α) :=
  choices.foldl (fun acc choice => acc.flatMap (fun chosen => choice.map (fun c => chosen ++ [c]))) [[]]

/-- The first ways to choose are made of the first elements, however the lists are cut off after these on the way. -/
theorem cappedProduct_eq_take (hl : 1 ≤ l) {choices choices' : List (List α)}
    (h : List.Forall₂ (fun c' c => c'.take l = c.take l) choices' choices) :
    cappedProduct l choices' = (product choices).take l := by
  have hfold : ∀ acc acc' : List (List α), acc' = acc.take l →
      choices'.foldl
          (fun acc choice => (acc.flatMap (fun chosen => choice.map (fun c => chosen ++ [c]))).take l) acc' =
        (choices.foldl (fun acc choice => acc.flatMap (fun chosen => choice.map (fun c => chosen ++ [c]))) acc).take l := by
    induction h with
    | nil => exact fun acc acc' hacc => hacc
    | cons hchoice _ ih =>
      rintro acc _ rfl
      refine ih _ _ (take_flatMap_congr ?_ hchoice _)
      rw [List.take_take, Nat.min_self]
  exact hfold [[]] [[]] (List.take_of_length_le hl).symm

theorem cappedProduct_take (hl : 1 ≤ l) (hL : l ≤ L) (choices : List (List α)) :
    cappedProduct l (choices.map (List.take l)) = (cappedProduct L choices).take l := by
  have hfirst : List.Forall₂ (fun c' c => c'.take l = c.take l) (choices.map (List.take l)) choices := by
    rw [List.forall₂_map_left_iff, List.forall₂_same]
    intro c _
    rw [List.take_take, Nat.min_self]
  rw [cappedProduct_eq_take hl hfirst, cappedProduct_eq_take (Nat.le_trans hl hL) (List.forall₂_same.2 fun _ _ => rfl),
    List.take_take, Nat.min_eq_left hL]

theorem mem_product {choices : List (List α)} {chosen : List α} :
    chosen ∈ product choices ↔ List.Forall₂ (fun a choice => a ∈ choice) chosen choices := by
  induction choices using List.reverseRecOn generalizing chosen with
  | nil => rw [List.forall₂_nil_right_iff]; exact List.mem_singleton
  | append_singleton choices choice ih =>
    rw [product, List.foldl_append]
    change chosen ∈ (product choices).flatMap _ ↔ _
    simp only [List.mem_flatMap, List.mem_map, ih]
    constructor
    · rintro ⟨before, hbefore, a, ha, rfl⟩
      exact List.rel_append hbefore (.cons ha .nil)
    · intro h
      have hlast := List.forall₂_drop_append _ _ _ h
      obtain ⟨a, l, ha, hl, hlast⟩ := List.forall₂_cons_right_iff.1 hlast
      obtain rfl := List.forall₂_nil_right_iff.1 hl
      exact ⟨_, List.forall₂_take_append _ _ _ h, a, ha, by rw [← hlast, List.take_append_drop]⟩

theorem length_product (choices : List (List α)) : (product choices).length = (choices.map List.length).prod := by
  induction choices using List.reverseRecOn with
  | nil => rfl
  | append_singleton choices choice ih =>
    rw [product, List.foldl_append]
    change ((product choices).flatMap _).length = _
    simp only [List.length_flatMap, List.length_map, List.map_const', List.sum_replicate_nat, ih, List.map_append,
      List.prod_append, List.map_singleton, List.prod_singleton]

/-- If there are fewer ways to choose than the limit, none was cut off and no list has as many elements. -/
theorem of_length_cappedProduct_lt (hL : 1 ≤ L) {choices : List (List α)} (hne : ∀ choice ∈ choices, choice ≠ [])
    (h : (cappedProduct L choices).length < L) :
    cappedProduct L choices = product choices ∧ ∀ choice ∈ choices, choice.length < L := by
  have hproduct : cappedProduct L choices = (product choices).take L :=
    cappedProduct_eq_take hL (List.forall₂_same.2 fun _ _ => rfl)
  rw [hproduct, List.length_take] at h
  refine ⟨hproduct.trans (List.take_of_length_le (by omega)), fun choice hchoice => ?_⟩
  have hpos : 0 < (product choices).length := by
    rw [length_product]
    refine Nat.pos_of_ne_zero (List.prod_ne_zero fun hzero => ?_)
    obtain ⟨c, hc, hlength⟩ := List.mem_map.1 hzero
    exact hne c hc (List.length_eq_zero_iff.1 hlength)
  have hle : choice.length ≤ (product choices).length := by
    refine Nat.le_of_dvd hpos ?_
    rw [length_product]
    exact List.dvd_prod (List.mem_map_of_mem hchoice)
  omega

/-! Results gathered from one computation after the other, until there are as many as the limit. -/

theorem foldlM_take {f g : α → Except ε (List β)} (hfg : ∀ a r, f a = .ok r → g a = .ok (r.take l)) (hL : l ≤ L)
    {as : List α} {acc found acc' : List β} (hacc : acc'.take l = acc.take l)
    (h : as.foldlM (fun acc a => if L ≤ acc.length then pure acc else do
      let more ← f a
      pure (acc ++ more)) acc = .ok found) :
    ∃ found', as.foldlM (fun acc a => if l ≤ acc.length then pure acc else do
      let more ← g a
      pure (acc ++ more)) acc' = .ok found' ∧ found'.take l = found.take l := by
  induction as generalizing acc acc' with
  | nil =>
    cases h
    exact ⟨acc', rfl, hacc⟩
  | cons a as ih =>
    rw [List.foldlM_cons] at h ⊢
    obtain ⟨next, hnext, h⟩ := exists_of_bind_ok h
    have hlength := congrArg List.length hacc
    rw [List.length_take, List.length_take] at hlength
    by_cases hfull : l ≤ acc'.length
    · -- enough was found, and what the larger limit adds comes after that
      have hfirst : acc'.take l = next.take l := by
        split at hnext
        · cases hnext
          exact hacc
        · obtain ⟨more, -, hnext⟩ := exists_of_bind_ok hnext
          cases hnext
          rw [hacc, List.take_append_of_le_length (by omega)]
      rw [if_pos hfull]
      exact ih hfirst h
    · obtain rfl : acc' = acc := by
        rwa [List.take_of_length_le (by omega), List.take_of_length_le (by omega)] at hacc
      rw [if_neg (by omega)] at hnext
      obtain ⟨more, hmore, hnext⟩ := exists_of_bind_ok hnext
      cases hnext
      have hfirst : (acc' ++ more.take l).take l = (acc' ++ more).take l := by
        rw [List.take_append, List.take_append, List.take_take, Nat.min_eq_left (Nat.sub_le ..)]
      rw [if_neg hfull, hfg a more hmore]
      exact ih hfirst h

theorem mem_foldlM_iff {f : α → Except ε (List β)} {P : α → β → Prop} {as : List α}
    (hf : ∀ a ∈ as, ∀ r, f a = .ok r → r.length < L → ∀ b, b ∈ r ↔ P a b) {acc found : List β}
    (h : as.foldlM (fun acc a => if L ≤ acc.length then pure acc else do
      let more ← f a
      pure (acc ++ more)) acc = .ok found) (hfound : found.length < L) :
    acc.length ≤ found.length ∧ ∀ b, b ∈ found ↔ b ∈ acc ∨ ∃ a ∈ as, P a b := by
  induction as generalizing acc with
  | nil =>
    cases h
    exact ⟨Nat.le_refl _, fun b => by simp⟩
  | cons a as ih =>
    obtain ⟨ha, has⟩ := List.forall_mem_cons.1 hf
    rw [List.foldlM_cons] at h
    obtain ⟨next, hnext, h⟩ := exists_of_bind_ok h
    obtain ⟨hlength, hmem⟩ := ih has h
    split at hnext
    · cases hnext
      omega
    · obtain ⟨more, hmore, hnext⟩ := exists_of_bind_ok hnext
      cases hnext
      rw [List.length_append] at hlength
      refine ⟨by omega, fun b => ?_⟩
      rw [hmem, List.mem_append, ha more hmore (by omega), List.exists_mem_cons_iff, or_assoc]

end

variable {σ κ : Type} {m : Memo σ κ} {l L : Nat}

theorem bindInput_take (hl : 1 ≤ l) (hL : l ≤ L) {p : Pattern} {g : GroupId} {bound : List Expr}
    (hexpr : ∀ {id trees}, m.bindExpr L id p = .ok trees → m.bindExpr l id p = .ok (trees.take l))
    (h : m.bindInput L g p = .ok bound) : m.bindInput l g p = .ok (bound.take l) := by
  cases p with
  | leaf | multiLeaf =>
    cases h
    exact congrArg Except.ok (List.take_of_length_le hl).symm
  | tree =>
    obtain ⟨tree, htree, h⟩ := exists_of_bind_ok h
    cases h
    exact bind_ok_of_ok htree (congrArg Except.ok (List.take_of_length_le hl).symm)
  | operator kind patterns =>
    obtain ⟨found, hfound, h⟩ := exists_of_bind_ok h
    cases h
    obtain ⟨found', hfound', hsame⟩ := foldlM_take (fun _ _ h => hexpr h) hL rfl hfound
    refine bind_ok_of_ok hfound' (congrArg Except.ok ?_)
    rw [hsame, List.take_take, Nat.min_eq_left hL]

mutual

theorem bindExpr_take (hl : 1 ≤ l) (hL : l ≤ L) : ∀ {p : Pattern} {id : ExprId} {trees : List Expr},
    m.bindExpr L id p = .ok trees → m.bindExpr l id p = .ok (trees.take l)
  | .operator kind patterns, id, trees, h => by
    unfold bindExpr at h ⊢
    obtain ⟨e, he, h⟩ := exists_of_bind_ok h
    refine bind_ok_of_ok he ?_
    cases hop : e.op.logical? with
    | none =>
      simp only [hop] at h ⊢
      cases h
      exact congrArg Except.ok List.take_nil.symm
    | some op =>
      simp only [hop] at h ⊢
      split at h
      · rename_i hroot
        cases h
        rw [if_pos hroot]
        exact congrArg Except.ok List.take_nil.symm
      · rename_i hroot
        rw [if_neg hroot]
        obtain ⟨bound, hbound, h⟩ := exists_of_bind_ok h
        refine bind_ok_of_ok (bindInputs_take hl hL hbound) ?_
        cases bound with
        | none =>
          cases h
          exact congrArg Except.ok List.take_nil.symm
        | some choices =>
          cases h
          rw [← List.map_take, ← cappedProduct_take hl hL]
          rfl
  | .leaf, _, _, h | .tree, _, _, h | .multiLeaf, _, _, h => by
    unfold bindExpr at h ⊢
    cases h
    exact congrArg Except.ok List.take_nil.symm

theorem bindInputs_take (hl : 1 ≤ l) (hL : l ≤ L) {rest : Bool} : ∀ {ps : List Pattern} {groups : List GroupId}
    {choices : Option (List (List Expr))}, m.bindInputs L rest groups ps = .ok choices →
      m.bindInputs l rest groups ps = .ok (choices.map (List.map (List.take l)))
  | _, [], choices, h => by
    unfold bindInputs at h ⊢
    cases h
    rfl
  | [], g :: groups, choices, h => by
    unfold bindInputs at h ⊢
    split at h
    · rename_i hrest
      cases h
      rw [if_pos hrest, Option.map_some, List.map_map]
      have hsame : ∀ k, (List.take l ∘ fun k => [Expr.group (m.find k)]) k = [.group (m.find k)] := fun k =>
        List.take_of_length_le hl
      rw [funext hsame]
      rfl
    · rename_i hrest
      cases h
      rw [if_neg hrest]
      rfl
  | p :: ps, g :: groups, choices, h => by
    rw [bindInputs_cons] at h ⊢
    obtain ⟨bound, hbound, h⟩ := exists_of_bind_ok h
    refine bind_ok_of_ok (bindInput_take hl hL (fun h => bindExpr_take hl hL h) hbound) ?_
    have hempty : (bound.take l).isEmpty = bound.isEmpty := by
      cases bound <;> simp [Nat.ne_of_gt hl]
    rw [hempty]
    split at h
    · rename_i hnone
      cases h
      rw [if_pos hnone]
      rfl
    · rename_i hsome
      rw [if_neg hsome]
      obtain ⟨others, hothers, h⟩ := exists_of_bind_ok h
      refine bind_ok_of_ok (bindInputs_take hl hL hothers) ?_
      cases others with
      | none =>
        cases h
        rfl
      | some others =>
        cases h
        rfl

end

mutual

/-- A tree matches a pattern, with an expression at its root. -/
inductive Matches (m : Memo σ κ) : Pattern → ExprId → Expr → Prop
  | operator {kind : LogicalKind} {patterns : List Pattern} {id : ExprId} {e : MemoExpr} {op : LogicalOp}
    {trees : List Expr} (he : m.expr? id = some e) (hop : e.op = .logical op)
    (hroot : (Pattern.operator kind patterns).matchesRoot op = true)
    (hinputs : MatchesAll m (Pattern.takesRest patterns) patterns e.inputs trees) :
    Matches m (.operator kind patterns) id (.node (.logical op) trees)

/-- A tree of a group matches a pattern. -/
inductive MatchesInput (m : Memo σ κ) : Pattern → GroupId → Expr → Prop
  | leaf {g : GroupId} : MatchesInput m .leaf g (.group (m.find g))
  | multiLeaf {g : GroupId} : MatchesInput m .multiLeaf g (.group (m.find g))
  | tree {g : GroupId} {t : Expr} (h : m.expand (m.find g) = .ok t) : MatchesInput m .tree g t
  | operator {kind : LogicalKind} {patterns : List Pattern} {g : GroupId} {id : ExprId} {e : MemoExpr} {t : Expr}
    (hmem : (id, e) ∈ m.members (m.find g)) (h : Matches m (.operator kind patterns) id t) :
    MatchesInput m (.operator kind patterns) g t

/-- Trees of groups match patterns one by one. With `rest` the groups after the last pattern are taken as they are. -/
inductive MatchesAll (m : Memo σ κ) : Bool → List Pattern → List GroupId → List Expr → Prop
  | nil {rest : Bool} {patterns : List Pattern} : MatchesAll m rest patterns [] []
  | rest {g : GroupId} {groups : List GroupId} {trees : List Expr} (h : MatchesAll m true [] groups trees) :
    MatchesAll m true [] (g :: groups) (.group (m.find g) :: trees)
  | cons {rest : Bool} {p : Pattern} {patterns : List Pattern} {g : GroupId} {groups : List GroupId} {t : Expr}
    {trees : List Expr} (ht : MatchesInput m p g t) (h : MatchesAll m rest patterns groups trees) :
    MatchesAll m rest (p :: patterns) (g :: groups) (t :: trees)

end

theorem matchesAll_rest_iff {groups : List GroupId} {trees : List Expr} :
    m.MatchesAll true [] groups trees ↔ trees = groups.map fun g => .group (m.find g) := by
  induction groups generalizing trees with
  | nil =>
    constructor
    · rintro ⟨⟩
      rfl
    · rintro rfl
      exact .nil
  | cons g groups ih =>
    constructor
    · intro h
      cases h with | rest h => rw [ih.1 h, List.map_cons]
    · rintro rfl
      exact .rest (ih.2 rfl)

theorem mem_bindInput_iff {p : Pattern} {g : GroupId} {bound : List Expr}
    (hexpr : ∀ {id trees}, m.bindExpr L id p = .ok trees → trees.length < L → ∀ t, t ∈ trees ↔ m.Matches p id t)
    (h : m.bindInput L g p = .ok bound) (hlength : bound.length < L) (t : Expr) : t ∈ bound ↔ m.MatchesInput p g t := by
  cases p with
  | leaf =>
    cases h
    rw [List.mem_singleton]
    exact ⟨by rintro rfl; exact .leaf, by rintro ⟨⟩; rfl⟩
  | multiLeaf =>
    cases h
    rw [List.mem_singleton]
    exact ⟨by rintro rfl; exact .multiLeaf, by rintro ⟨⟩; rfl⟩
  | tree =>
    obtain ⟨tree, htree, h⟩ := exists_of_bind_ok h
    cases h
    rw [List.mem_singleton]
    constructor
    · rintro rfl
      exact .tree htree
    · intro hmatch
      cases hmatch with | tree htree' => ?_
      cases htree.symm.trans htree'
      rfl
  | operator kind patterns =>
    obtain ⟨found, hfound, h⟩ := exists_of_bind_ok h
    cases h
    rw [List.length_take] at hlength
    have hfound := (mem_foldlM_iff (P := fun x t => m.Matches (.operator kind patterns) x.1 t)
      (fun _ _ _ h hlength => hexpr h hlength) hfound (by omega)).2 t
    rw [List.take_of_length_le (by omega), hfound]
    constructor
    · rintro (hnil | ⟨⟨id, e⟩, hmem, hmatch⟩)
      · cases hnil
      · exact .operator hmem hmatch
    · intro hmatch
      cases hmatch with | operator hmem hmatch => exact .inr ⟨_, hmem, hmatch⟩

mutual

theorem mem_bindExpr_iff (hL : 1 ≤ L) : ∀ {p : Pattern} {id : ExprId} {trees : List Expr},
    m.bindExpr L id p = .ok trees → trees.length < L → ∀ t, t ∈ trees ↔ m.Matches p id t
  | .operator kind patterns, id, trees, h, hlength, t => by
    unfold bindExpr at h
    obtain ⟨e, he, h⟩ := exists_of_bind_ok h
    have he := expr_ok he
    cases hop : e.op.logical? with
    | none =>
      simp only [hop] at h
      cases h
      refine iff_of_false List.not_mem_nil fun hmatch => ?_
      cases hmatch with | operator he' hop' _ _ => ?_
      cases he.symm.trans he'
      rw [hop'] at hop
      cases hop
    | some op =>
      simp only [hop] at h
      have hop := eq_logical_of_logical? hop
      split at h
      · rename_i hroot
        cases h
        refine iff_of_false List.not_mem_nil fun hmatch => ?_
        cases hmatch with | operator he' hop' hroot' _ => ?_
        cases he.symm.trans he'
        cases hop.symm.trans hop'
        simp [hroot'] at hroot
      · rename_i hroot
        obtain ⟨bound, hbound, h⟩ := exists_of_bind_ok h
        obtain ⟨hne, hiff⟩ := mem_bindInputs_iff hL hbound
        have hmatches : m.Matches (.operator kind patterns) id t ↔ ∃ ts, t = .node (.logical op) ts ∧
            m.MatchesAll (Pattern.takesRest patterns) patterns e.inputs ts := by
          constructor
          · intro hmatch
            cases hmatch with | operator he' hop' _ hinputs => ?_
            cases he.symm.trans he'
            cases hop.symm.trans hop'
            exact ⟨_, rfl, hinputs⟩
          · rintro ⟨ts, rfl, hinputs⟩
            exact .operator he hop (by simpa using hroot) hinputs
        rw [hmatches]
        cases bound with
        | none =>
          cases h
          refine iff_of_false List.not_mem_nil ?_
          rintro ⟨ts, -, hts⟩
          obtain ⟨_, hnone, -⟩ := (hiff nofun ts).2 hts
          cases hnone
        | some choices =>
          cases h
          rw [List.length_map] at hlength
          obtain ⟨hproduct, hshort⟩ := of_length_cappedProduct_lt hL (hne choices rfl) hlength
          rw [hproduct, List.mem_map]
          refine exists_congr fun ts => ?_
          rw [mem_product, ← hiff (by rintro _ ⟨⟩; exact hshort) ts, and_comm]
          simp [Expr.ofLogical, eq_comm]
  | .leaf, _, _, h, _, t | .tree, _, _, h, _, t | .multiLeaf, _, _, h, _, t => by
    unfold bindExpr at h
    cases h
    exact iff_of_false List.not_mem_nil nofun

theorem mem_bindInputs_iff (hL : 1 ≤ L) {rest : Bool} : ∀ {ps : List Pattern} {groups : List GroupId}
    {choices : Option (List (List Expr))}, m.bindInputs L rest groups ps = .ok choices →
      (∀ bounds ∈ choices, ∀ bound ∈ bounds, bound ≠ []) ∧
      ((∀ bounds ∈ choices, ∀ bound ∈ bounds, bound.length < L) → ∀ trees,
        (∃ bounds ∈ choices, List.Forall₂ (fun t bound => t ∈ bound) trees bounds) ↔ m.MatchesAll rest ps groups trees)
  | _, [], choices, h => by
    unfold bindInputs at h
    cases h
    refine ⟨by rintro _ ⟨⟩; exact List.forall_mem_nil _, fun _ trees => ?_⟩
    constructor
    · rintro ⟨_, ⟨⟩, htrees⟩
      rw [List.forall₂_nil_right_iff.1 htrees]
      exact .nil
    · intro h
      cases h
      exact ⟨[], rfl, .nil⟩
  | [], g :: groups, choices, h => by
    unfold bindInputs at h
    split at h
    · rename_i hrest
      obtain rfl := hrest
      cases h
      refine ⟨?_, fun _ trees => ?_⟩
      · rintro _ ⟨⟩ bound hbound
        obtain ⟨k, -, rfl⟩ := List.mem_map.1 hbound
        exact List.cons_ne_nil _ _
      · have hsame : List.Forall₂ (fun t bound => t ∈ bound) trees ((g :: groups).map fun k => [.group (m.find k)]) ↔
            trees = (g :: groups).map fun k => .group (m.find k) := by
          rw [← List.forall₂_eq_eq_eq, List.forall₂_map_right_iff, List.forall₂_map_right_iff]
          simp only [List.mem_singleton]
        rw [matchesAll_rest_iff, ← hsame]
        exact ⟨by rintro ⟨_, ⟨⟩, htrees⟩; exact htrees, fun htrees => ⟨_, rfl, htrees⟩⟩
    · rename_i hrest
      cases h
      refine ⟨nofun, fun _ trees => iff_of_false (by rintro ⟨_, ⟨⟩, _⟩) fun hmatch => ?_⟩
      cases hmatch
      exact hrest rfl
  | p :: ps, g :: groups, choices, h => by
    rw [bindInputs_cons] at h
    obtain ⟨bound, hbound, h⟩ := exists_of_bind_ok h
    have hmem := mem_bindInput_iff (fun h hlength => mem_bindExpr_iff hL h hlength) hbound
    split at h
    · rename_i hempty
      obtain rfl := List.isEmpty_iff.1 hempty
      cases h
      refine ⟨nofun, fun _ trees => iff_of_false (by rintro ⟨_, ⟨⟩, _⟩) fun hmatch => ?_⟩
      cases hmatch with | cons ht _ => exact List.not_mem_nil ((hmem hL _).2 ht)
    · rename_i hsome
      obtain ⟨others, hothers, h⟩ := exists_of_bind_ok h
      obtain ⟨hne, hiff⟩ := mem_bindInputs_iff hL hothers
      cases others with
      | none =>
        cases h
        refine ⟨nofun, fun _ trees => iff_of_false (by rintro ⟨_, ⟨⟩, _⟩) fun hmatch => ?_⟩
        cases hmatch with | cons _ hmatch => ?_
        obtain ⟨_, ⟨⟩, _⟩ := (hiff nofun _).2 hmatch
      | some others =>
        cases h
        refine ⟨?_, fun hshort trees => ?_⟩
        · rintro _ ⟨⟩
          exact List.forall_mem_cons.2 ⟨by simpa using hsome, hne others rfl⟩
        · obtain ⟨hfirst, hshort⟩ := List.forall_mem_cons.1 (hshort _ rfl)
          have hiff := hiff (by rintro _ ⟨⟩; exact hshort)
          constructor
          · rintro ⟨_, ⟨⟩, htrees⟩
            cases htrees with | cons ht htrees => ?_
            exact .cons ((hmem hfirst _).1 ht) ((hiff _).1 ⟨_, rfl, htrees⟩)
          · intro hmatch
            cases hmatch with | cons ht hmatch => ?_
            obtain ⟨_, ⟨⟩, htrees⟩ := (hiff _).2 hmatch
            exact ⟨_, rfl, .cons ((hmem hfirst _).2 ht) htrees⟩

end

/-- The bindings up to a limit are the first of those up to a larger limit. If these are fewer than that limit, they are
all trees that match the pattern. -/
theorem bindings_take (m : Memo σ κ) (id : ExprId) (p : Pattern) (hl : 1 ≤ l) (hL : l ≤ L) {trees : List Expr}
    (h : m.bindings id p L = .ok trees) : m.bindings id p l = .ok (trees.take l) ∧
      (trees.length < L → ∀ t, t ∈ trees ↔ m.Matches p id t) := by
  unfold bindings at h ⊢
  split at h
  · exact ⟨bindExpr_take hl hL h, mem_bindExpr_iff (Nat.le_trans hl hL) h⟩
  · cases h

/-- Of two rows the first, or the one after it, and the first of that. -/
def rowsInTurn : List (Operation Unit Nat) :=
  [.insert (rowSource true) (firstOf (firstOf (constants 2))),
    .insertInto (rowSource true) ⟨1⟩ (.node (.logical (.limit ⟨1, some 1, .none⟩)) [constants 2])]

/-- There are two bindings, one for each member of the group below. The first of them is the only one up to a limit of 1. -/
theorem bindings_take_rowsInTurn : ∃ trees t, trees.length = 2 ∧ trees.head? = some t ∧ 1 ≤ 1 ∧ 1 ≤ 9 ∧
    (runAll false none rowsInTurn).bindings ⟨2⟩ (.operator .limit [.operator .limit [.leaf]]) 9 = .ok trees ∧
    (runAll false none rowsInTurn).bindings ⟨2⟩ (.operator .limit [.operator .limit [.leaf]]) 1 = .ok [t] ∧
    ∀ t, t ∈ trees ↔ (runAll false none rowsInTurn).Matches (.operator .limit [.operator .limit [.leaf]]) ⟨2⟩ t := by
  have hlength : ((runAll false none rowsInTurn).bindings ⟨2⟩
      (.operator .limit [.operator .limit [.leaf]]) 9).toOption.map List.length = some 2 := by decide +kernel
  obtain ⟨trees, htrees, hlength⟩ := Option.map_eq_some_iff.1 hlength
  obtain ⟨hfirst, hall⟩ := bindings_take _ _ _ (l := 1) (L := 9) (by decide) (by decide) (eq_ok_of_toOption htrees)
  match trees, hlength with
  | [t, u], _ => exact ⟨[t, u], t, rfl, rfl, by decide, by decide, eq_ok_of_toOption htrees, hfirst, hall (by simp)⟩

end Memo
end Cascade
