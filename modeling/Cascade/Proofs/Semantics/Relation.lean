import Mathlib.Data.Multiset.Bind
import Mathlib.Data.Multiset.Dedup
import Mathlib.Logic.Function.Basic
import Cascade.Algebra.Operator
import Cascade.Proofs.Semantics.Scalar

/-!
Bags of rows and the operations on them that logical operators stand for. A relation depends on the
scope it is evaluated in: the values of outer columns and the rows of common table expressions.
-/

namespace Cascade

/-- The values of the columns a row has. -/
abbrev Row := ColumnId → Option Value

namespace Row

/-- A row has just these columns. -/
def Over (r : Row) (columns : ColumnSet) : Prop := ∀ c, (r c).isSome = true ↔ c ∈ columns

theorem Over.eq_none {r : Row} {columns : ColumnSet} (h : r.Over columns) {c : ColumnId} (hc : c ∉ columns) :
    r c = none := by
  rw [← Option.not_isSome_iff_eq_none, h c]
  exact hc

def ofPairs (l : List (ColumnId × Value)) : Row := fun c => l.lookup c

theorem over_ofPairs (l : List (ColumnId × Value)) : (ofPairs l).Over (.ofList (l.map Prod.fst)) := by
  intro c
  unfold ofPairs
  rw [SortedSet.mem_ofList, List.lookup_isSome_iff, List.mem_map]
  exact exists_congr fun p => and_congr_right fun _ => beq_iff_eq.trans eq_comm

theorem ofPairs_map {l : List ColumnId} {c : ColumnId} (h : c ∈ l) (f : ColumnId → Value) :
    ofPairs (l.map (fun c => (c, f c))) c = some (f c) := by
  unfold ofPairs
  induction l with
  | nil => cases h
  | cons d l ih =>
    rw [List.map_cons, List.lookup_cons]
    by_cases hcd : c = d
    · rw [hcd, beq_self_eq_true]
    · rw [beq_false_of_ne hcd]
      exact ih ((List.mem_cons.1 h).resolve_left hcd)

/-- A cell among cells that agree on what they have in the same column. -/
theorem ofPairs_map_of_functional {α : Type} {l : List (ColumnId × α)}
    (hl : ∀ x ∈ l, ∀ y ∈ l, x.1 = y.1 → x.2 = y.2) (f : α → Value) {x : ColumnId × α} (hx : x ∈ l) :
    ofPairs (l.map (fun y => (y.1, f y.2))) x.1 = some (f x.2) := by
  unfold ofPairs
  induction l with
  | nil => cases hx
  | cons y l ih =>
    rw [List.map_cons, List.lookup_cons]
    by_cases hxy : x.1 = y.1
    · rw [hxy, beq_self_eq_true, hl x hx y (List.mem_cons_self ..) hxy]
    · rw [beq_false_of_ne hxy]
      refine ih (fun z hz w hw => hl z (List.mem_cons_of_mem _ hz) w (List.mem_cons_of_mem _ hw)) ?_
      exact (List.mem_cons.1 hx).resolve_left fun h => hxy (congrArg Prod.fst h)

theorem ofPairs_map_of_nodup {α : Type} {l : List (ColumnId × α)} (hl : (l.map Prod.fst).Nodup) (f : α → Value)
    {x : ColumnId × α} (hx : x ∈ l) : ofPairs (l.map (fun y => (y.1, f y.2))) x.1 = some (f x.2) :=
  ofPairs_map_of_functional (fun _ hx _ hy h => congrArg Prod.snd (List.inj_on_of_nodup_map hl hx hy h)) f hx

/-- Columns of both rows; a column of both has the value of the first. -/
def merge (l r : Row) : Row := fun c => (l c).or (r c)

theorem merge_of_some {l : Row} {c : ColumnId} {v : Value} (h : l c = some v) (r : Row) :
    l.merge r c = some v := by
  unfold merge
  rw [h, Option.some_or]

theorem merge_of_none {l : Row} {c : ColumnId} (h : l c = none) (r : Row) : l.merge r c = r c := by
  unfold merge
  rw [h, Option.none_or]

theorem ofPairs_append (l r : List (ColumnId × Value)) : ofPairs (l ++ r) = (ofPairs l).merge (ofPairs r) :=
  funext fun _ => List.lookup_append

theorem Over.merge {l r : Row} {left right : ColumnSet} (hl : l.Over left) (hr : r.Over right) :
    (l.merge r).Over (left ∪ right) := by
  intro c
  unfold Row.merge
  rw [SortedSet.mem_union, ← hl c, ← hr c, Option.isSome_or, Bool.or_eq_true]

def nulls (columns : ColumnSet) : Row := fun c => if c ∈ columns then some .null else none

theorem nulls_of_mem {columns : ColumnSet} {c : ColumnId} (h : c ∈ columns) : nulls columns c = some .null :=
  if_pos h

theorem over_nulls (columns : ColumnSet) : (nulls columns).Over columns := by
  intro c
  unfold nulls
  split <;> simp_all

end Row

/-- What the columns of a row hide of a binding, they replace. -/
def Binding.with (b : Binding) (r : Row) : Binding := fun c => (r c).getD (b c)

theorem Binding.with_of_some {b : Binding} {r : Row} {c : ColumnId} {v : Value} (h : r c = some v) :
    b.with r c = v := by
  unfold Binding.with
  rw [h, Option.getD_some]

/-- The rows of a place of a query depend on the values of outer columns and on the rows that common
table expressions stand for. -/
structure Scope where
  binding : Binding
  cte : CteId → Multiset Row

/-- The scope of what is evaluated for one row. -/
def Scope.enter (s : Scope) (r : Row) : Scope := { s with binding := s.binding.with r }

/-- Rows with the same columns. -/
structure Relation where
  columns : ColumnSet
  rows : Scope → Multiset Row
  rows_over : ∀ s, ∀ r ∈ rows s, r.Over columns

namespace JoinType

/-- Rows of the right input merged with a left row, where the condition is true. -/
def matched (on : Row → Truth) (l : Row) (right : Multiset Row) : Multiset Row :=
  (right.map l.merge).filter (fun r => on r = some true)

/-- What a left row contributes to a join. `NOT IN` keeps it if the condition is false for every row of
the right input. -/
def contribution (type : JoinType) (on : Row → Truth) (pad l : Row) (right : Multiset Row) : Multiset Row :=
  match type with
  | inner | rightOuter => matched on l right
  | leftOuter => if (matched on l right).card = 0 then {l.merge pad} else matched on l right
  | leftSemi => if (matched on l right).card = 0 then 0 else {l}
  | leftAntiSemi => if (matched on l right).card = 0 then {l} else 0
  | leftAntiSemiNotIn =>
    if ((right.map l.merge).filter (fun r => on r ≠ some false)).card = 0 then {l} else 0

/-- Rows of the right input that match no left row, padded. -/
def unmatched (on : Row → Truth) (pad : Row) (left right : Multiset Row) : Multiset Row :=
  (right.filter (fun r => (left.filter (fun l => on (l.merge r) = some true)).card = 0)).map pad.merge

/-- The columns of a join. -/
def columns (type : JoinType) (left right : ColumnSet) : ColumnSet :=
  if type.isSemiOrAnti then left else left ∪ right

theorem mem_columns_left (type : JoinType) {left : ColumnSet} {c : ColumnId} (h : c ∈ left) (right : ColumnSet) :
    c ∈ type.columns left right := by
  unfold columns
  split
  · exact h
  · exact SortedSet.mem_union.2 (.inl h)

theorem mem_columns_right {type : JoinType} (htype : type.isSemiOrAnti = false) {right : ColumnSet}
    {c : ColumnId} (h : c ∈ right) (left : ColumnSet) : c ∈ type.columns left right := by
  unfold columns
  rw [htype, if_neg Bool.false_ne_true]
  exact SortedSet.mem_union.2 (.inr h)

theorem over_contribution (type : JoinType) (on : Row → Truth) {pad l : Row} {left right : ColumnSet}
    {rs : Multiset Row} (hl : l.Over left) (hpad : pad.Over right) (hr : ∀ r ∈ rs, r.Over right) :
    ∀ r ∈ type.contribution on pad l rs, r.Over (type.columns left right) := by
  have hmatched : ∀ r ∈ matched on l rs, r.Over (left ∪ right) := by
    intro r hm
    obtain ⟨r', hr', rfl⟩ := Multiset.mem_map.1 (Multiset.mem_of_mem_filter hm)
    exact hl.merge (hr r' hr')
  intro r hm
  cases type with
  | inner => exact hmatched r hm
  | rightOuter => exact hmatched r hm
  | leftOuter =>
    simp only [contribution] at hm
    split at hm
    · rw [Multiset.mem_singleton.1 hm]
      exact hl.merge hpad
    · exact hmatched r hm
  | leftSemi =>
    simp only [contribution] at hm
    split at hm
    · exact absurd hm (Multiset.notMem_zero r)
    · rw [Multiset.mem_singleton.1 hm]
      exact hl
  | leftAntiSemi | leftAntiSemiNotIn =>
    simp only [contribution] at hm
    split at hm
    · rw [Multiset.mem_singleton.1 hm]
      exact hl
    · exact absurd hm (Multiset.notMem_zero r)

end JoinType

namespace Relation

def empty : Relation where
  columns := ∅
  rows _ := 0
  rows_over _ r hr := absurd hr (Multiset.notMem_zero r)

/-- One row without columns. -/
def unit : Relation where
  columns := ∅
  rows _ := {fun _ => none}
  rows_over _ r hr := by
    rw [Multiset.mem_singleton.1 hr]
    exact fun c => ⟨fun h => (nomatch h), fun h => (nomatch h)⟩

/-- Rows given by their cells. -/
def ofCells (columns : List ColumnId) (cells : Scope → Multiset (List (ColumnId × Value)))
    (h : ∀ s, ∀ l ∈ cells s, l.map Prod.fst = columns) : Relation where
  columns := .ofList columns
  rows s := (cells s).map Row.ofPairs
  rows_over s r hr := by
    obtain ⟨l, hl, rfl⟩ := Multiset.mem_map.1 hr
    exact h s l hl ▸ Row.over_ofPairs l

variable (R : Relation)

def filter (p : Binding → Bool) : Relation where
  columns := R.columns
  rows s := (R.rows s).filter (fun r => p (s.binding.with r) = true)
  rows_over s r hr := R.rows_over s r (Multiset.mem_of_mem_filter hr)

/-- Replaces every row by cells computed from it. -/
def compute {α : Type} (targets : List (ColumnId × α)) (value : Binding → α → Value) : Relation :=
  ofCells (targets.map Prod.fst)
    (fun s => (R.rows s).map (fun r => targets.map (fun a => (a.1, value (s.binding.with r) a.2))))
    (by
      intro s l hl
      obtain ⟨r, -, rfl⟩ := Multiset.mem_map.1 hl
      simp [Function.comp_def])

/-- Gives columns the values that other columns have, place by place. -/
def renamed (output input : List ColumnId) : Relation :=
  R.compute output.zipIdx (fun b place => (input[place]?).elim .null b)

theorem columns_renamed (output input : List ColumnId) : (R.renamed output input).columns = .ofList output :=
  congrArg SortedSet.ofList (List.zipIdx_map_fst ..)

/-- The values grouping columns have. -/
def groupKey (groupBy : List ColumnId) (b : Binding) : List (ColumnId × Value) :=
  groupBy.map (fun c => (c, b c))

/-- The keys of the groups of some rows. Without grouping columns there is one group, even of no rows. -/
def groupKeys (groupBy : List ColumnId) (b : Binding) (rows : Multiset Row) :
    Multiset (List (ColumnId × Value)) :=
  if groupBy.isEmpty then {[]} else (rows.map (fun r => groupKey groupBy (b.with r))).dedup

def groupMembers (groupBy : List ColumnId) (b : Binding) (rows : Multiset Row)
    (key : List (ColumnId × Value)) : Multiset Row :=
  rows.filter (fun r => groupKey groupBy (b.with r) = key)

theorem map_fst_groupKeys {groupBy : List ColumnId} {b : Binding} {rows : Multiset Row}
    {key : List (ColumnId × Value)} (h : key ∈ groupKeys groupBy b rows) : key.map Prod.fst = groupBy := by
  unfold groupKeys at h
  split at h
  · rw [Multiset.mem_singleton.1 h]
    exact (List.isEmpty_iff.1 ‹_›).symm
  · obtain ⟨r, -, rfl⟩ := Multiset.mem_map.1 (Multiset.mem_dedup.1 h)
    simp [groupKey, Function.comp_def]

section

variable {groupBy : List ColumnId} {b : Binding} {key : List (ColumnId × Value)} {rows : Multiset Row}

theorem exists_groupKey (h : key ∈ groupKeys groupBy b rows) : ∃ b', key = groupKey groupBy b' := by
  unfold groupKeys at h
  split at h
  · rename_i hempty
    rw [List.isEmpty_iff.1 hempty]
    exact ⟨b, Multiset.mem_singleton.1 h⟩
  · obtain ⟨r, -, rfl⟩ := Multiset.mem_map.1 (Multiset.mem_dedup.1 h)
    exact ⟨b.with r, rfl⟩

theorem ofPairs_groupKey {c : ColumnId} (hc : c ∈ groupBy) (b : Binding) (cells : List (ColumnId × Value)) :
    Row.ofPairs (groupKey groupBy b ++ cells) c = some (b c) := by
  rw [Row.ofPairs_append]
  exact Row.merge_of_some (Row.ofPairs_map hc b) _

/-- A row that begins with a key belongs to its group. -/
theorem groupKey_ofPairs (h : key ∈ groupKeys groupBy b rows) (cells : List (ColumnId × Value)) (b' : Binding) :
    groupKey groupBy (b'.with (.ofPairs (key ++ cells))) = key := by
  obtain ⟨c, rfl⟩ := exists_groupKey h
  exact List.map_congr_left fun x hx => congrArg (Prod.mk x) (Binding.with_of_some (ofPairs_groupKey hx c cells))

theorem nodup_groupKeys (groupBy : List ColumnId) (b : Binding) (rows : Multiset Row) :
    (groupKeys groupBy b rows).Nodup := by
  unfold groupKeys
  split
  · exact Multiset.nodup_singleton _
  · exact Multiset.nodup_dedup _

/-- What is computed for a group, in the row that begins with its key. -/
theorem ofPairs_group {α : Type} {targets : List (ColumnId × α)} (hkey : key ∈ groupKeys groupBy b rows)
    (hfresh : ∀ x ∈ targets, x.1 ∉ groupBy) (hnodup : (targets.map Prod.fst).Nodup) {x : ColumnId × α}
    (hx : x ∈ targets) (value : α → Value) :
    Row.ofPairs (key ++ targets.map (fun y => (y.1, value y.2))) x.1 = some (value x.2) := by
  have hover := Row.over_ofPairs key
  rw [map_fst_groupKeys hkey] at hover
  rw [Row.ofPairs_append]
  refine (Row.merge_of_none (hover.eq_none fun h => ?_) _).trans (Row.ofPairs_map_of_nodup hnodup value hx)
  exact hfresh x hx (SortedSet.mem_ofList.1 h)

end

/-- One row for every group: its key and what is computed from its rows. -/
def group {α : Type} (groupBy : List ColumnId) (targets : List (ColumnId × α))
    (value : Binding → Multiset Row → α → Value) : Relation :=
  ofCells (groupBy ++ targets.map Prod.fst)
    (fun s => (groupKeys groupBy s.binding (R.rows s)).map (fun key => key ++ targets.map (fun a =>
      (a.1, value s.binding (groupMembers groupBy s.binding (R.rows s) key) a.2))))
    (by
      intro s l hl
      obtain ⟨key, hkey, rfl⟩ := Multiset.mem_map.1 hl
      rw [List.map_append, map_fst_groupKeys hkey]
      simp [Function.comp_def])

/-- Keeps some of the rows. -/
def choose (f : Multiset Row → Multiset Row) (h : ∀ rows, f rows ≤ rows) : Relation where
  columns := R.columns
  rows s := f (R.rows s)
  rows_over s r hr := R.rows_over s r (Multiset.mem_of_le (h _) hr)

/-- Evaluates another relation for every row. -/
def apply (type : JoinType) (on : Binding → Truth) (right : Relation) : Relation where
  columns := type.columns R.columns right.columns
  rows s := (R.rows s).bind (fun l =>
    type.contribution (fun r => on (s.binding.with r)) (.nulls right.columns) l (right.rows (s.enter l)))
  rows_over s r hr := by
    obtain ⟨l, hl, hr⟩ := Multiset.mem_bind.1 hr
    exact type.over_contribution _ (R.rows_over s l hl) (Row.over_nulls _) (right.rows_over _) r hr

def join (type : JoinType) (on : Binding → Truth) (right : Relation) : Relation where
  columns := type.columns R.columns right.columns
  rows s :=
    (R.rows s).bind (fun l =>
      type.contribution (fun r => on (s.binding.with r)) (.nulls right.columns) l (right.rows s)) +
    if type = .rightOuter then
      JoinType.unmatched (fun r => on (s.binding.with r)) (.nulls R.columns) (R.rows s) (right.rows s)
    else 0
  rows_over s r hr := by
    rcases Multiset.mem_add.1 hr with hr | hr
    · obtain ⟨l, hl, hr⟩ := Multiset.mem_bind.1 hr
      exact type.over_contribution _ (R.rows_over s l hl) (Row.over_nulls _) (right.rows_over _) r hr
    · split at hr
      · rename_i htype
        obtain ⟨r', hr', rfl⟩ := Multiset.mem_map.1 hr
        rw [htype]
        exact (Row.over_nulls _).merge (right.rows_over s r' (Multiset.mem_of_mem_filter hr'))
      · exact absurd hr (Multiset.notMem_zero r)

/-- All combinations of rows. -/
def product : List Relation → Relation
  | [] => unit
  | R :: rest => R.join .inner (fun _ => some true) (product rest)

/-- The rows of all parts, each with its columns renamed. -/
def concat (output : List ColumnId) (parts : List (Relation × List ColumnId)) : Relation where
  columns := .ofList output
  rows s := (parts : Multiset (Relation × List ColumnId)).bind (fun x => (x.1.renamed output x.2).rows s)
  rows_over s r hr := by
    obtain ⟨x, -, hr⟩ := Multiset.mem_bind.1 hr
    exact columns_renamed x.1 output x.2 ▸ (x.1.renamed output x.2).rows_over s r hr

/-- The rows of a common table expression. -/
def ofCte (cte : CteId) (columns producerColumns : List ColumnId) : Relation :=
  ofCells columns
    (fun s => (s.cte cte).map (fun r => columns.zipIdx.map (fun a =>
      (a.1, (producerColumns[a.2]?).elim .null (s.binding.with r)))))
    (by
      intro s l hl
      obtain ⟨r, -, rfl⟩ := Multiset.mem_map.1 hl
      simp [Function.comp_def])

/-- Lets another relation read the rows as a common table expression. -/
def anchor (cte : CteId) (body : Relation) : Relation where
  columns := body.columns
  rows s := body.rows { s with cte := Function.update s.cte cte (R.rows s) }
  rows_over _ := body.rows_over _

/-- So many rows without columns. -/
def report (count : Binding → Multiset Row → Nat) : Relation where
  columns := ∅
  rows s := Multiset.replicate (count s.binding (R.rows s)) (fun _ => none)
  rows_over s r hr := unit.rows_over s r (Multiset.mem_singleton.2 (Multiset.eq_of_mem_replicate hr))

end Relation
end Cascade
