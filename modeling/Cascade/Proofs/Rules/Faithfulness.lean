import Cascade.Proofs.Memo.Producers
import Cascade.Proofs.Rules.Bindings

/-!
Trees that are read off a memo and copied back. Every operator of a binding is that of a live expression over the groups
of its inputs, so where it is copied it is found again (`Memo.ofTrees_holds`). A group is expanded along a way that never
comes back to a group, so its tree is no higher than there are groups (`Memo.exists_unfolding`). What is read is found in
the group it was read from, and the memo stays as it was (`Memo.insert_bindings`).
-/

namespace Cascade

namespace Expr

mutual

/-- How far the leaves of a tree are below its root. -/
def height : Expr → Nat
  | .group _ => 0
  | .node _ inputs => heightAll inputs

/-- How far the leaves of the inputs of an operator are below it. -/
def heightAll : List Expr → Nat
  | [] => 0
  | e :: es => max (e.height + 1) (heightAll es)

end

theorem heightAll_le_iff {es : List Expr} {n : Nat} : heightAll es ≤ n ↔ ∀ e ∈ es, e.height < n := by
  induction es with
  | nil => exact iff_of_true (Nat.zero_le n) (List.forall_mem_nil _)
  | cons e es ih => rw [heightAll, Nat.max_le, ih, List.forall_mem_cons, Nat.succ_le_iff]

end Expr

namespace Memo

variable {σ κ : Type} {m : Memo σ κ}

theorem knows_of_find_eq (c : m.Coherent) {g k : GroupId} (hg : m.Knows g) (h : m.find k = m.find g) : m.Knows k := by
  have hk : (m.find k).index < m.links.size := by
    rw [h, c.links_size]
    exact knows_find hg
  exact Nat.lt_of_lt_of_eq (m.links.lt_size_of_find_lt hk) c.links_size

theorem checkDepth_eq_ok_iff {depth : Nat} {u : Unit} : checkDepth depth = .ok u ↔ depth ≤ maxDepth := by
  unfold checkDepth
  split
  · exact iff_of_false nofun (by omega)
  · exact iff_of_true rfl (by omega)

/-- Wherever a tree is copied that is not too deep there, it is found in the group. -/
def Holds (m : Memo σ κ) (g : GroupId) (t : Expr) : Prop :=
  m.Knows g → ∀ depth, depth + t.height ≤ maxDepth → Finds m none depth t (m.find g)

theorem Holds.findsAll {gs : List GroupId} {ts : List Expr} (h : List.Forall₂ m.Holds gs ts)
    (hgs : ∀ g ∈ gs, m.Survives g) {depth : Nat} (hdepth : depth + Expr.heightAll ts ≤ maxDepth) {cte : Option CteId}
    (hcte : ∀ c ∈ cte, m.cteProducers.contains c = true) : FindsAll m (depth + 1) cte ts gs := by
  induction h generalizing cte with
  | nil => exact .nil
  | @cons g t gs ts ht _ ih =>
    obtain ⟨hg, hgs⟩ := List.forall_mem_cons.1 hgs
    rw [Expr.heightAll] at hdepth
    have hfinds := ht hg.1 (depth + 1) (by omega)
    rw [hg.2] at hfinds
    exact .cons hfinds hcte (ih hgs (by omega) nofun)

/-- Trees of live expressions are found again. -/
theorem ofTrees_holds (c : m.Coherent) (h : m.Registers producedCte?) : m.OfTrees m.Holds where
  group {g k} hk hg depth hdepth := by
    rw [← hk]
    exact .group (checkDepth_eq_ok_iff.2 hdepth) (knows_of_find_eq c hg hk) nofun
  node {g id e op inputs} he hop hgroup hinputs _ depth hdepth := by
    rw [← hgroup]
    have hfinds := Holds.findsAll hinputs (fun i hi => c.input_survives he hi) hdepth fun cte hcte =>
      h id e op cte he.1 hop hcte
    exact .logical (checkDepth_eq_ok_iff.2 (by omega)) he hop hfinds nofun

/-- What is found in a group is copied to it without a change. -/
theorem Holds.insert_eq [LT κ] [DecidableLT κ] (c : m.Coherent) {g : GroupId} {t : Expr} (h : m.Holds g t)
    (hg : m.Knows g) (ht : t.height ≤ maxDepth) (source : PropertySource σ) : m.insert source t = (.ok (m.find g), m) := by
  have hfinds := h hg 0 (by omega)
  unfold insert
  rw [Finds.insertAt_eq c source hfinds]
  rfl

/-- Wherever a tree is copied it is not too deep there. -/
def Measured (t : Expr) : Prop :=
  ∀ (source : PropertySource σ) target depth s, Yields (copyIn source target depth t : InsertM σ κ Placed) s
    (fun _ _ => depth + t.height ≤ maxDepth) (fun _ _ => True)

theorem yields_copyInputs_measured {ts : List Expr} (h : ∀ t ∈ ts, Measured (σ := σ) (κ := κ) t)
    (source : PropertySource σ) {depth : Nat} (hdepth : depth ≤ maxDepth) (cte : Option CteId) (s : Insertion σ κ) :
    Yields (copyInputs source (depth + 1) cte ts : InsertM σ κ (List GroupId)) s
      (fun _ _ => depth + Expr.heightAll ts ≤ maxDepth) (fun _ _ => True) := by
  induction ts generalizing cte s with
  | nil => exact .of_pure hdepth
  | cons t ts ih =>
    obtain ⟨ht, hts⟩ := List.forall_mem_cons.1 h
    unfold copyInputs
    refine .bind (ht source none (depth + 1) s) fun placed u hhead => ?_
    refine .bind (.any _ u) fun _ v _ => .bind (ih hts none v) fun _ _ hrest => .of_pure ?_
    rw [Expr.heightAll]
    omega

theorem ofTrees_measured (m : Memo σ κ) : m.OfTrees (fun _ t => Measured (σ := σ) (κ := κ) t) where
  group {g k} _ source target depth s := by
    unfold copyIn
    refine .bind_lift (fun _ hdepth => ?_) fun _ _ => trivial
    exact .of_run fun _ _ _ => checkDepth_eq_ok_iff.1 hdepth
  node {g id e op inputs} _ _ _ hinputs source target depth s := by
    unfold copyIn
    refine .bind_lift (fun _ hdepth => ?_) fun _ _ => trivial
    refine .bind_lift (fun _ _ => ?_) fun _ _ => trivial
    refine .bind (yields_copyInputs_measured (fun t ht => ?_) source (checkDepth_eq_ok_iff.1 hdepth) _ s) fun _ _ h =>
      .of_run fun _ _ _ => h
    obtain ⟨_, -, ht⟩ := exists_of_mem_right hinputs ht
    exact ht

theorem Measured.height_le [LT κ] [DecidableLT κ] {t : Expr} (h : Measured (σ := σ) (κ := κ) t)
    {source : PropertySource σ} {g : GroupId} {n : Memo σ κ} (hinsert : m.insert source t = (.ok g, n)) : t.height ≤ maxDepth := by
  unfold insert insertAt at hinsert
  have hcopied := h source none 0 ⟨m, [], []⟩
  unfold Yields at hcopied
  split at hcopied
  · exact Nat.zero_add t.height ▸ hcopied
  · rename_i err s hrun
    rw [hrun] at hinsert
    cases hinsert

/-- Different groups that stand for themselves are no more than there are. -/
theorem length_le_groupCount (c : m.Coherent) {path : List GroupId} (hpath : path.Nodup)
    (hroots : ∀ g ∈ path, m.Survives g) : path.length ≤ m.groupCount := by
  have hindexes : (path.map GroupId.index).Nodup := by
    refine hpath.map_on fun g _ k _ h => ?_
    cases g
    cases k
    exact congrArg GroupId.mk h
  have hsubset : path.map GroupId.index ⊆ m.links.roots := by
    intro i hi
    obtain ⟨g, hg, rfl⟩ := List.mem_map.1 hi
    obtain ⟨hknown, hroot⟩ := hroots g hg
    refine List.mem_filter.2 ⟨List.mem_range.2 (Nat.lt_of_lt_of_eq hknown c.links_size.symm), ?_⟩
    exact (m.links.isRoot_iff _).2 (congrArg GroupId.index hroot)
  rw [groupCount, ← List.length_map (f := GroupId.index)]
  exact (hindexes.subperm hsubset).length_le

/-- A group unfolds to a tree below a way: enough levels give the tree, fewer the error that it is too deep. -/
def Unfolds (m : Memo σ κ) (path : List GroupId) (g : GroupId) (t : Expr) : Prop :=
  ∀ levels, m.expandBelow path g levels = if t.height < levels then .ok t else .error (.tooDeep maxDepth)

theorem Unfolds.mapM {path : List GroupId} {gs : List GroupId} {ts : List Expr}
    (h : List.Forall₂ (m.Unfolds path) gs ts) (levels : Nat) :
    gs.mapM (fun g => m.expandBelow path g levels) =
      if Expr.heightAll ts ≤ levels then .ok ts else .error (.tooDeep maxDepth) := by
  induction h with
  | nil => rfl
  | @cons g t gs ts ht _ ih =>
    rw [List.mapM_cons, ht levels, ih, Expr.heightAll]
    by_cases hhead : t.height < levels
    · rw [if_pos hhead]
      by_cases hrest : Expr.heightAll ts ≤ levels
      · rw [if_pos hrest, if_pos (by omega)]
        rfl
      · rw [if_neg hrest, if_neg (by omega)]
        rfl
    · have hmax : ¬ max (t.height + 1) (Expr.heightAll ts) ≤ levels := by omega
      rw [if_neg hhead, if_neg hmax]
      rfl

/-- Every group unfolds to a tree that passes no group twice on a way down. The induction is on the groups that are not
on the way yet. -/
theorem exists_unfolding (c : m.Coherent) {path : List GroupId} {g : GroupId} (hg : m.Knows g) (hpath : path.Nodup)
    (hroots : ∀ k ∈ path, m.Survives k) (hnew : m.find g ∉ path) :
    ∃ t, m.Unfolds path g t ∧ path.length + t.height < m.groupCount := by
  induction hn : m.groupCount - path.length using Nat.strongRecOn generalizing path g with
  | ind n ih =>
    have hpath' : (m.find g :: path).Nodup := List.nodup_cons.2 ⟨hnew, hpath⟩
    have hroots' : ∀ k ∈ m.find g :: path, m.Survives k := List.forall_mem_cons.2 ⟨survives_find hg, hroots⟩
    have hlength := length_le_groupCount c hpath' hroots'
    rw [List.length_cons] at hlength
    cases hfind : (m.members (m.find g)).find? (fun x =>
        x.2.op.isLogical && x.2.inputs.all (fun i => !decide (m.find i ∈ m.find g :: path))) with
    | none =>
      refine ⟨.group (m.find g), fun levels => ?_, hlength⟩
      cases levels with
      | zero => rfl
      | succ levels =>
        unfold expandBelow
        dsimp only
        rw [hfind]
        exact (if_pos (Nat.succ_pos levels)).symm
    | some x =>
      obtain ⟨id, e⟩ := x
      obtain ⟨he, -⟩ := of_mem_members c (List.mem_of_find?_eq_some hfind)
      have hfinite := List.find?_some hfind
      simp only [Bool.and_eq_true, List.all_eq_true, Bool.not_eq_true', decide_eq_false_iff_not] at hfinite
      obtain ⟨ts, hts⟩ := exists_forall₂ (R := fun i t => m.Unfolds (m.find g :: path) i t ∧
          path.length + 1 + t.height < m.groupCount) fun i hi =>
        ih _ (by rw [← hn, List.length_cons]; omega) (c.input_survives he hi).1 hpath' hroots' (hfinite.2 i hi) rfl
      have hheights : Expr.heightAll ts ≤ m.groupCount - path.length - 1 := Expr.heightAll_le_iff.2 fun t ht => by
        obtain ⟨i, -, -, hlt⟩ := exists_of_mem_right hts ht
        omega
      refine ⟨.node e.op ts, fun levels => ?_, ?_⟩
      · cases levels with
        | zero => rfl
        | succ levels =>
          unfold expandBelow
          dsimp only
          rw [hfind]
          dsimp only
          rw [Unfolds.mapM (hts.imp fun _ _ h => h.1), Expr.height]
          by_cases hle : Expr.heightAll ts ≤ levels
          · rw [if_pos hle, if_pos (Nat.lt_succ_iff.2 hle)]
            rfl
          · rw [if_neg hle, if_neg (fun h => hle (Nat.lt_succ_iff.1 h))]
            rfl
      · rw [Expr.height]
        omega

section

variable [LT κ] [DecidableLT κ] {g : GroupId} {t : Expr}

theorem Holds.insert_iff (h : m.Holds g t) (hmeasured : Measured (σ := σ) (κ := κ) t) (c : m.Coherent) (hg : m.Knows g)
    (source : PropertySource σ) : m.insert source t = (.ok (m.find g), m) ↔ t.height ≤ maxDepth :=
  ⟨hmeasured.height_le, fun ht => h.insert_eq c hg ht source⟩

/-- After any operations, the bindings of a live expression are inserted into its group without a change, if they are
not too deep for the memo. Every group expands to a tree lower than there are groups, with an error only if it is too deep,
and it is inserted into the group without a change. -/
theorem insert_bindings (verify : Bool) (limit : Option Nat) (ops : List (Operation σ κ)) :
    (∀ id e p cap trees, (runAll verify limit ops).Live id e →
      (runAll verify limit ops).bindings id p cap = .ok trees → ∀ t ∈ trees, ∀ source,
        (runAll verify limit ops).insert source t =
          (.ok ((runAll verify limit ops).find e.group), runAll verify limit ops) ↔ t.height ≤ maxDepth) ∧
    ∀ g, (runAll verify limit ops).Knows g → ∃ t, t.height < (runAll verify limit ops).groupCount ∧
      (runAll verify limit ops).expand g = (if t.height ≤ maxDepth then .ok t else .error (.tooDeep maxDepth)) ∧
      ∀ source, (runAll verify limit ops).insert source t =
        (.ok ((runAll verify limit ops).find g), runAll verify limit ops) ↔ t.height ≤ maxDepth := by
  have c := (wellFormed_runAll verify limit ops).coherent
  have hholds := ofTrees_holds c (registers_runAll verify limit ops)
  generalize runAll verify limit ops = m at c hholds
  refine ⟨fun id e p cap trees he htrees t ht source => ?_, fun g hg => ?_⟩
  · obtain ⟨_, _, _, hfound⟩ := hholds.of_bindings c htrees t ht
    obtain ⟨_, _, _, hmeasured⟩ := m.ofTrees_measured.of_bindings c htrees t ht
    exact (hholds.of_rooted hfound he rfl).insert_iff (m.ofTrees_measured.of_rooted hmeasured he rfl) c
      (c.group_known he.1) source
  · obtain ⟨t, hunfolds, hheight⟩ := exists_unfolding c hg List.nodup_nil (List.forall_mem_nil _) List.not_mem_nil
    have htree : m.expandBelow [] g (t.height + 1) = .ok t := (hunfolds _).trans (if_pos (Nat.lt_succ_self _))
    refine ⟨t, by simpa using hheight, ?_, (hholds.of_expandBelow c rfl htree).insert_iff
      (m.ofTrees_measured.of_expandBelow c rfl htree) c hg⟩
    rw [expand, hunfolds (maxDepth + 1)]
    simp only [Nat.lt_succ_iff]

/-- Constants that turn out to be the first of their own rows. -/
def rowsOfThemselves : List (Operation Unit Nat) :=
  [.insert (rowSource false) (firstOf (constants 0)), .insertInto (rowSource false) ⟨1⟩ (constants 0)]

/-- The only group holds its own first rows. Bound with them below, they are higher than the tree of the group. -/
theorem insert_bindings_rowsOfThemselves : ∃ m, m = runAll false none rowsOfThemselves ∧
    (∃ e trees, m.Live ⟨1⟩ e ∧ e.inputs = [m.find e.group] ∧
      m.bindings ⟨1⟩ (.operator .limit [.operator .limit [.tree]]) 9 = .ok trees ∧ trees.map Expr.height = [2] ∧
      ∀ t ∈ trees, m.insert (rowSource true) t = (.ok (m.find e.group), m)) ∧
    m.Knows ⟨1⟩ ∧ ∃ t, m.expand ⟨1⟩ = .ok t ∧ m.insert (rowSource true) t = (.ok (m.find ⟨1⟩), m) := by
  have hfacts : ((runAll false none rowsOfThemselves).expr? ⟨1⟩).map (fun e =>
        (e.removed, e.inputs, (runAll false none rowsOfThemselves).find e.group)) = some (false, [⟨0⟩], ⟨0⟩) ∧
      ((runAll false none rowsOfThemselves).bindings ⟨1⟩ (.operator .limit [.operator .limit [.tree]]) 9).toOption.map
        (List.map Expr.height) = some [2] ∧
      1 < (runAll false none rowsOfThemselves).groups.length ∧ (runAll false none rowsOfThemselves).groupCount = 1 := by
    decide +kernel
  refine ⟨_, rfl, ?_⟩
  obtain ⟨hbindings, hexpand⟩ := insert_bindings false none rowsOfThemselves
  generalize runAll false none rowsOfThemselves = m at hfacts hbindings hexpand ⊢
  obtain ⟨hexpr, htrees, hknows, hcount⟩ := hfacts
  obtain ⟨e, he, hfields⟩ := Option.map_eq_some_iff.1 hexpr
  obtain ⟨trees, htrees, hheights⟩ := Option.map_eq_some_iff.1 htrees
  simp only [Prod.mk.injEq] at hfields
  obtain ⟨hremoved, hinputs, hgroup⟩ := hfields
  refine ⟨⟨e, trees, ⟨he, hremoved⟩, hgroup ▸ hinputs, eq_ok_of_toOption htrees, hheights, fun t ht => ?_⟩, hknows, ?_⟩
  · refine (hbindings _ _ _ _ _ ⟨he, hremoved⟩ (eq_ok_of_toOption htrees) t ht _).2 ?_
    have hheight := List.mem_map_of_mem (f := Expr.height) ht
    rw [hheights, List.mem_singleton] at hheight
    rw [hheight]
    decide
  · obtain ⟨t, hheight, hexpand, hinsert⟩ := hexpand ⟨1⟩ hknows
    have hlow : t.height ≤ maxDepth := Nat.le_trans (Nat.le_of_lt hheight) (hcount ▸ by decide)
    exact ⟨t, hexpand.trans (if_pos hlow), (hinsert _).2 hlow⟩

end

end Memo
end Cascade
