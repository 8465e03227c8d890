import Mathlib.Data.List.SplitBy
import Cascade.Proofs.Semantics.Distinct
import Cascade.Proofs.Sequence

/-!
Rows in order. Rows are compared by the columns of an ordering, one after the other, in some order of values. Merging
sorted sequences gives a sorted one (`Merged.pairwise`).
-/

namespace Cascade

open Std

/-- Compares rows by one column; a column that a row lacks counts as `NULL`. -/
def OrderColumn.compare (cmp : Value → Value → Ordering) (c : OrderColumn) (r s : Row) : Ordering :=
  if c.descending then cmp (s.values c.column) (r.values c.column) else cmp (r.values c.column) (s.values c.column)

/-- Compares rows by the first of some columns in which they differ. -/
def compareColumns (cmp : Value → Value → Ordering) : List OrderColumn → Row → Row → Ordering
  | [] => fun _ _ => .eq
  | c :: cs => compareLex (c.compare cmp) (compareColumns cmp cs)

namespace OrderSpec

variable (cmp : Value → Value → Ordering)

/-- A row may come before another one. -/
def Le (o : OrderSpec) (r s : Row) : Prop := (compareColumns cmp o.columns r s).isLE = true

/-- The rows are sorted. -/
def Sorts (o : OrderSpec) (rows : List Row) : Prop := rows.Pairwise (o.Le cmp)

end OrderSpec

section

variable {cmp : Value → Value → Ordering} {r s r' s' : Row}

instance [TransCmp cmp] (c : OrderColumn) : TransCmp (c.compare cmp) := by
  have hvalues : TransCmp (fun r s : Row => cmp (r.values c.column) (s.values c.column)) :=
    { eq_swap := OrientedCmp.eq_swap, isLE_trans := TransCmp.isLE_trans }
  unfold OrderColumn.compare
  split
  · exact TransCmp.opposite
  · exact hvalues

instance [TransCmp cmp] (cs : List OrderColumn) : TransCmp (compareColumns cmp cs) := by
  induction cs with
  | nil => exact { eq_swap := rfl, isLE_trans := fun _ _ => rfl }
  | cons c cs ih => exact inferInstanceAs (TransCmp (compareLex (c.compare cmp) (compareColumns cmp cs)))

/-- Renamed columns with the same values compare the same. -/
theorem compareColumns_map {f : OrderColumn → OrderColumn} (hf : ∀ c, (f c).descending = c.descending)
    {cs : List OrderColumn} (hr : ∀ c ∈ cs, r'.values (f c).column = r.values c.column)
    (hs : ∀ c ∈ cs, s'.values (f c).column = s.values c.column) :
    compareColumns cmp (cs.map f) r' s' = compareColumns cmp cs r s := by
  induction cs with
  | nil => rfl
  | cons c cs ih =>
    have hfirst : (f c).compare cmp r' s' = c.compare cmp r s := by
      unfold OrderColumn.compare
      rw [hf, hr c (List.mem_cons_self ..), hs c (List.mem_cons_self ..)]
    have hrest := ih (fun d hd => hr d (List.mem_cons_of_mem _ hd)) fun d hd => hs d (List.mem_cons_of_mem _ hd)
    rw [List.map_cons, compareColumns, compareColumns, compareLex, compareLex, hfirst, hrest]

theorem isLE_compareColumns_of_prefix {cs ds : List OrderColumn} (h : cs <+: ds)
    (hle : (compareColumns cmp ds r s).isLE = true) : (compareColumns cmp cs r s).isLE = true := by
  induction cs generalizing ds with
  | nil => rfl
  | cons c cs ih =>
    obtain ⟨rest, rfl⟩ := h
    rw [List.cons_append, compareColumns, compareLex, Ordering.isLE_then_iff_or] at hle
    rw [compareColumns, compareLex, Ordering.isLE_then_iff_or]
    exact hle.imp_right fun h => ⟨h.1, ih (List.prefix_append cs rest) h.2⟩

end

namespace OrderSpec

variable {cmp : Value → Value → Ordering} {o required : OrderSpec} {r s r' s' : Row} {rows rows' : List Row}

theorem Le.trans [TransCmp cmp] (h : o.Le cmp r s) {t : Row} (k : o.Le cmp s t) : o.Le cmp r t := TransCmp.isLE_trans h k

theorem le_congr (hr : ∀ c ∈ o.columns, r'.values c.column = r.values c.column)
    (hs : ∀ c ∈ o.columns, s'.values c.column = s.values c.column) : o.Le cmp r' s' ↔ o.Le cmp r s := by
  unfold Le
  rw [← compareColumns_map (fun _ => rfl) hr hs, List.map_id']

theorem le_of_agree [TransCmp cmp] (h : ∀ c ∈ o.columns, r.values c.column = s.values c.column) : o.Le cmp r s := by
  rw [le_congr h fun _ _ => rfl]
  exact ReflCmp.isLE_rfl

@[simp] theorem sorts_none (rows : List Row) : OrderSpec.none.Sorts cmp rows :=
  List.pairwise_of_forall fun _ _ => rfl

/-- A satisfied ordering: rows that are sorted are sorted as required. -/
theorem Sorts.of_satisfies (h : o.Sorts cmp rows) (hsatisfies : o.satisfies required = true) : required.Sorts cmp rows :=
  h.imp fun hle => isLE_compareColumns_of_prefix (List.isPrefixOf_iff_prefix.1 hsatisfies) hle

theorem satisfies_keepWhile (o : OrderSpec) (columns : ColumnSet) : o.satisfies (o.keepWhile columns) = true :=
  List.isPrefixOf_iff_prefix.2 (List.takeWhile_prefix _)

/-- Rows are replaced, one by one, by rows that have the same values in renamed columns. -/
theorem Sorts.replace (h : o.Sorts cmp rows) {f : OrderColumn → OrderColumn} (hf : ∀ c, (f c).descending = c.descending)
    (hrows : List.Forall₂ (fun r r' => ∀ c ∈ o.columns, r'.values (f c).column = r.values c.column) rows rows') :
    OrderSpec.Sorts cmp ⟨o.columns.map f⟩ rows' := by
  induction hrows with
  | nil => exact List.Pairwise.nil
  | @cons r r' rows rows' hr hrows ih =>
    obtain ⟨hfirst, hrest⟩ := List.pairwise_cons.1 h
    refine List.pairwise_cons.2 ⟨fun s' hs' => ?_, ih hrest⟩
    obtain ⟨s, hs, hsame⟩ := exists_of_mem_right hrows hs'
    have hle : (compareColumns cmp o.columns r s).isLE = true := hfirst s hs
    rwa [← compareColumns_map hf hr hsame] at hle

/-- Every row is replaced by rows that have its values in the columns of the ordering. -/
theorem Sorts.expand [TransCmp cmp] (h : o.Sorts cmp rows) {parts : List (List Row)}
    (hparts : List.Forall₂ (fun r part => ∀ s ∈ part, ∀ c ∈ o.columns, s.values c.column = r.values c.column)
      rows parts) : o.Sorts cmp parts.flatten := by
  induction hparts with
  | nil => exact List.Pairwise.nil
  | @cons r part rows parts hr hparts ih =>
    obtain ⟨hfirst, hrest⟩ := List.pairwise_cons.1 h
    rw [List.flatten_cons]
    refine List.pairwise_append.2 ⟨?_, ih hrest, fun s hs t ht => ?_⟩
    · exact List.pairwise_of_forall_mem_list fun s hs t ht =>
        le_of_agree fun c hc => (hr s hs c hc).trans (hr t ht c hc).symm
    · obtain ⟨other, hother, ht⟩ := List.mem_flatten.1 ht
      obtain ⟨r', hr', hsame⟩ := exists_of_mem_right hparts hother
      exact (le_congr (hr s hs) (hsame t ht)).2 (hfirst r' hr')

/-- Every run of rows is replaced by a row that has the values of one of them in the columns of the ordering. -/
theorem Sorts.collapse {runs : List (List Row)} (h : o.Sorts cmp runs.flatten) {f : List Row → Row}
    (hf : ∀ run ∈ runs, ∃ r ∈ run, ∀ c ∈ o.columns, (f run).values c.column = r.values c.column) :
    o.Sorts cmp (runs.map f) := by
  obtain ⟨-, hruns⟩ := List.pairwise_flatten.1 h
  refine List.pairwise_map.2 (hruns.imp_of_mem fun {run run'} hrun hrun' hle => ?_)
  obtain ⟨r, hr, hsame⟩ := hf run hrun
  obtain ⟨r', hr', hsame'⟩ := hf run' hrun'
  exact (le_congr hsame hsame').2 (hle r hr r' hr')

end OrderSpec

/-- Sequences are merged: the next element is the first one of a sequence and may come before the first ones of all
others. -/
inductive Merged {α : Type} (le : α → α → Prop) : List (List α) → List α → Prop
  | done {ls : List (List α)} (h : ∀ l ∈ ls, l = []) : Merged le ls []
  | take {before after : List (List α)} {x : α} {rest out : List α} (hx : ∀ l ∈ before ++ after, ∀ y ∈ l.head?, le x y)
    (h : Merged le (before ++ rest :: after) out) : Merged le (before ++ (x :: rest) :: after) (x :: out)

namespace Merged

variable {α : Type} {le : α → α → Prop} {ls : List (List α)} {out : List α}

theorem mem_around {before after : List (List α)} {l x : List α} :
    x ∈ before ++ l :: after ↔ x = l ∨ x ∈ before ++ after := by
  simp only [List.mem_append, List.mem_cons, or_left_comm]

theorem exists_mem (h : Merged le ls out) {x : α} (hx : x ∈ out) : ∃ l ∈ ls, x ∈ l := by
  induction h with
  | done => cases hx
  | @take before after y rest out _ _ ih =>
    rcases List.mem_cons.1 hx with rfl | hx
    · exact ⟨x :: rest, mem_around.2 (.inl rfl), List.mem_cons_self ..⟩
    · obtain ⟨l, hl, hxl⟩ := ih hx
      rcases mem_around.1 hl with rfl | hl
      · exact ⟨y :: l, mem_around.2 (.inl rfl), List.mem_cons_of_mem _ hxl⟩
      · exact ⟨l, mem_around.2 (.inr hl), hxl⟩

/-- Merging sorted sequences gives a sorted one. -/
theorem pairwise (h : Merged le ls out) (htrans : ∀ {x y z}, le x y → le y z → le x z)
    (hls : ∀ l ∈ ls, l.Pairwise le) : out.Pairwise le := by
  induction h with
  | done => exact List.Pairwise.nil
  | @take before after x rest out hx h ih =>
    obtain ⟨hrest, hsorted⟩ := List.pairwise_cons.1 (hls (x :: rest) (mem_around.2 (.inl rfl)))
    have hothers : ∀ l ∈ before ++ after, l.Pairwise le := fun l hl => hls l (mem_around.2 (.inr hl))
    refine List.pairwise_cons.2 ⟨fun y hy => ?_, ih fun l hl => ?_⟩
    · obtain ⟨l, hl, hyl⟩ := h.exists_mem hy
      rcases mem_around.1 hl with rfl | hl
      · exact hrest y hyl
      · cases l with
        | nil => cases hyl
        | cons z l =>
          have hz : le x z := hx _ hl z rfl
          rcases List.mem_cons.1 hyl with rfl | hyl
          · exact hz
          · exact htrans hz ((List.pairwise_cons.1 (hothers _ hl)).1 y hyl)
    · rcases mem_around.1 hl with rfl | hl
      · exact hsorted
      · exact hothers l hl

end Merged
end Cascade
