import Mathlib.Data.List.Induction
import Mathlib.Data.List.Nodup
import Cascade.Proofs.Schema.Registration

/-!
Indexes and their tables. A table stays in a catalog as long as any of its indexes does, so the table of an index is the
one that was there when the index was added (`Catalog.index_of_answer`). An index is only compared by the name of its
table then: its columns are columns of this table just if the table that it was declared on has the same ones.
-/

namespace Cascade

namespace TableDraft

variable {d : TableDraft} {t : Table}

theorem nodup_of_repeatedColumn? {seen : List String} {columns : List TableColumn}
    (h : repeatedColumn? seen columns = none) :
    (columns.map TableColumn.name).Nodup ∧ ∀ c ∈ columns, c.name ∉ seen := by
  induction columns generalizing seen with
  | nil => exact ⟨List.nodup_nil, List.forall_mem_nil _⟩
  | cons c columns ih =>
    unfold repeatedColumn? at h
    split at h
    · cases h
    · rename_i hc
      obtain ⟨hnodup, hseen⟩ := ih h
      refine ⟨List.nodup_cons.2 ⟨fun hmem => ?_, hnodup⟩, List.forall_mem_cons.2 ⟨hc, fun x hx hmem => ?_⟩⟩
      · obtain ⟨x, hx, hname⟩ := List.mem_map.1 hmem
        exact hseen x hx (hname ▸ List.mem_cons_self ..)
      · exact hseen x hx (List.mem_cons_of_mem _ hmem)

theorem nodup_of_build (h : d.build = .ok t) : (t.columns.map TableColumn.name).Nodup := by
  unfold build at h
  by_cases hempty : d.columns.isEmpty = true
  · rw [if_pos hempty] at h
    cases h
  · rw [if_neg hempty] at h
    cases hrepeated : repeatedColumn? [] d.columns with
    | some name =>
      simp only [hrepeated] at h
      cases h
    | none =>
      simp only [hrepeated] at h
      obtain ⟨_, -, h⟩ := exists_of_bind_ok h
      obtain ⟨_, -, h⟩ := exists_of_bind_ok h
      obtain ⟨_, -, h⟩ := exists_of_bind_ok h
      obtain ⟨_, -, h⟩ := exists_of_bind_ok h
      cases h
      exact (nodup_of_repeatedColumn? hrepeated).1

end TableDraft

/-- A declared index has the columns of its table with the declared names. -/
theorem IndexDraft.columns_of_build {d : IndexDraft} {i : Index} (h : d.build = .ok i) :
    List.Forall₂ (fun name c => d.table.column? name = some c) d.columns i.columns := by
  unfold build at h
  split at h
  · cases h
  · obtain ⟨columns, hcolumns, h⟩ := exists_of_bind_ok h
    cases h
    refine (forall₂_of_mapM_ok hcolumns).imp fun name c hc => ?_
    split at hc
    · rename_i hfound
      exact hfound.trans (congrArg some (Except.ok.inj hc))
    · cases hc

theorem Table.mem_of_column? {t : Table} {name : String} {c : TableColumn} (h : t.column? name = some c) :
    c ∈ t.columns :=
  List.mem_of_find?_eq_some h

theorem Table.column?_of_mem {t : Table} (hnodup : (t.columns.map TableColumn.name).Nodup) {c : TableColumn}
    (hc : c ∈ t.columns) : t.column? c.name = some c := by
  unfold column?
  cases hfind : t.columns.find? (fun x => decide (x.name = c.name)) with
  | none => exact absurd (List.find?_eq_none.1 hfind c hc) (by simp)
  | some x =>
    have hname : x.name = c.name := by simpa using List.find?_some hfind
    exact congrArg some (List.inj_on_of_nodup_map hnodup (List.mem_of_find?_eq_some hfind) hc hname)

theorem Lookup.get?_of_not_contains {α β : Type} [DecidableEq α] {l : Lookup α β} {a : α} (h : ¬ l.contains a = true) :
    l.get? a = none :=
  Option.not_isSome_iff_eq_none.1 h

namespace Catalog

/-- What changes a catalog. An index may be declared on any table, also on one that the catalog no longer has. -/
inductive Operation
  | addTable (d : TableDraft)
  | addIndex (d : IndexDraft)
  | removeTable (name : String)

def run (c : Catalog) : Operation → Except PlanError Catalog
  | .addTable d => do
    let t ← d.build
    c.addTable t
  | .addIndex d => do
    let i ← d.build
    c.addIndex i
  | .removeTable name => c.removeTable name

/-- The catalog after an operation; one that fails changes nothing. -/
def apply (c : Catalog) (op : Operation) : Catalog :=
  match c.run op with
  | .ok c' => c'
  | .error _ => c

def runAll (ops : List Operation) : Catalog := ops.foldl apply empty

theorem runAll_concat (ops : List Operation) (op : Operation) : runAll (ops ++ [op]) = (runAll ops).apply op :=
  List.foldl_append ..

variable {c : Catalog} {op : Operation} {ops : List Operation} {i : Index} {t : Table}

/-- What an operation that changes the catalog has done to it. -/
inductive Changes (c : Catalog) : Operation → Catalog → Prop
  | addTable {d : TableDraft} {t : Table} (ht : d.build = .ok t) (hnew : c.table? t.name = none) :
    Changes c (.addTable d) { c with tables := c.tables.set t.name t }
  | addIndex {d : IndexDraft} {i : Index} {t : Table} (hi : d.build = .ok i) (ht : c.table? i.table = some t)
    (hnew : c.index? i.name = none) : Changes c (.addIndex d) { c with indexes := c.indexes.set i.name i }
  | removeTable {name : String} : Changes c (.removeTable name)
      { tables := c.tables.erase name, indexes := c.indexes.filter (fun _ i => !decide (i.table = name)) }

theorem apply_cases (c : Catalog) (op : Operation) : c.apply op = c ∨ Changes c op (c.apply op) := by
  unfold apply
  cases hrun : c.run op with
  | error e => exact .inl rfl
  | ok c' =>
    right
    cases op with
    | addTable d =>
      obtain ⟨t, ht, hadd⟩ := exists_of_bind_ok hrun
      unfold Catalog.addTable at hadd
      split at hadd
      · cases hadd
      · rename_i hnew
        cases hadd
        exact .addTable ht (Lookup.get?_of_not_contains hnew)
    | addIndex d =>
      obtain ⟨i, hi, hadd⟩ := exists_of_bind_ok hrun
      unfold Catalog.addIndex at hadd
      split at hadd
      · cases hadd
      · rename_i htable
        split at hadd
        · cases hadd
        · rename_i hnew
          cases hadd
          have hcontains : c.tables.contains i.table = true := by simpa using htable
          obtain ⟨t, ht⟩ := Option.isSome_iff_exists.1 hcontains
          exact .addIndex hi ht (Lookup.get?_of_not_contains hnew)
    | removeTable name =>
      change c.removeTable name = .ok c' at hrun
      unfold Catalog.removeTable at hrun
      split at hrun
      · cases hrun
        exact .removeTable
      · cases hrun

/-- The tables of a catalog are found under their names, and no two columns of one have one name. -/
theorem of_mem_tables (ops : List Operation) :
    ∀ r ∈ (runAll ops).tables.rows, r.2.name = r.1 ∧ (r.2.columns.map TableColumn.name).Nodup := by
  induction ops using List.reverseRecOn with
  | nil => exact List.forall_mem_nil _
  | append_singleton ops op ih =>
    rw [runAll_concat]
    generalize runAll ops = c at ih ⊢
    obtain hsame | hchanges := c.apply_cases op
    · rwa [hsame]
    · generalize c.apply op = c' at hchanges ⊢
      intro r hr
      cases hchanges with
      | addTable ht hnew =>
        rcases Lookup.mem_rows_set hr with rfl | hr
        · exact ⟨rfl, TableDraft.nodup_of_build ht⟩
        · exact ih r hr
      | addIndex => exact ih r hr
      | removeTable => exact ih r (Lookup.mem_rows_erase hr)

/-- One of the operations added the index as it was declared, when the catalog had this table. -/
def Added (ops : List Operation) (d : IndexDraft) (i : Index) (t : Table) : Prop :=
  d.build = .ok i ∧ ∃ before after, ops = before ++ .addIndex d :: after ∧ (runAll before).table? i.table = some t

theorem Added.concat {d : IndexDraft} (h : Added ops d i t) (op : Operation) : Added (ops ++ [op]) d i t := by
  obtain ⟨hbuild, before, after, rfl, ht⟩ := h
  exact ⟨hbuild, before, after ++ [op], by simp, ht⟩

/-- The table of an index is the one that was there when the index was added. -/
theorem of_mem_indexes (ops : List Operation) :
    ∀ r ∈ (runAll ops).indexes.rows, ∃ t d, (runAll ops).table? r.2.table = some t ∧ Added ops d r.2 t := by
  induction ops using List.reverseRecOn with
  | nil => exact List.forall_mem_nil _
  | append_singleton ops op ih =>
    have hadded : ∀ d i t, op = .addIndex d → d.build = .ok i → (runAll ops).table? i.table = some t →
        Added (ops ++ [op]) d i t := by
      rintro d i t rfl hi ht
      exact ⟨hi, ops, [], rfl, ht⟩
    rw [runAll_concat]
    generalize runAll ops = c at ih hadded ⊢
    obtain hsame | hchanges := c.apply_cases op
    · rw [hsame]
      intro r hr
      obtain ⟨t, d, ht, hd⟩ := ih r hr
      exact ⟨t, d, ht, hd.concat op⟩
    · generalize c.apply op = c' at hchanges ⊢
      intro r hr
      cases hchanges with
      | @addTable d' t' ht' hnew =>
        obtain ⟨t, d, ht, hd⟩ := ih r hr
        have hne : r.2.table ≠ t'.name := fun h => by
          rw [h, hnew] at ht
          cases ht
        exact ⟨t, d, (c.tables.get?_set_of_ne t' hne).trans ht, hd.concat _⟩
      | addIndex hi ht hnew =>
        rcases Lookup.mem_rows_set hr with rfl | hr
        · exact ⟨_, _, ht, hadded _ _ _ rfl hi ht⟩
        · obtain ⟨t, d, ht, hd⟩ := ih r hr
          exact ⟨t, d, ht, hd.concat _⟩
      | @removeTable name =>
        obtain ⟨hr, hkept⟩ := List.mem_filter.1 hr
        obtain ⟨t, d, ht, hd⟩ := ih r hr
        have hne : r.2.table ≠ name := by simpa using hkept
        exact ⟨t, d, (c.tables.get?_erase_of_ne hne).trans ht, hd.concat _⟩

theorem mem_indexesOf {table : String} : i ∈ c.indexesOf table ↔ i ∈ c.indexes.valueList ∧ i.table = table := by
  rw [indexesOf, List.mem_mergeSort, List.mem_filter, decide_eq_true_iff]

/-- Some look-up in a catalog answers an index. -/
def Answers (c : Catalog) (i : Index) : Prop := (∃ name, c.index? name = some i) ∨ ∃ table, i ∈ c.indexesOf table

theorem Answers.mem_rows (h : c.Answers i) : ∃ name, (name, i) ∈ c.indexes.rows := by
  obtain ⟨name, h⟩ | ⟨table, h⟩ := h
  · exact ⟨name, Lookup.mem_rows_of_get? h⟩
  · obtain ⟨r, hr, rfl⟩ := List.mem_map.1 (mem_indexesOf.1 h).1
    exact ⟨r.1, hr⟩

/-- After any operations, with indexes declared on any tables, an index that a look-up answers belongs to a table of the
catalog, the one that was there when the index was added. All its columns are columns of this table just if the table
has under the declared names the columns of the table that the index was declared on. -/
theorem index_of_answer (ops : List Operation) (h : (runAll ops).Answers i) :
    ∃ d t, Added ops d i t ∧ (runAll ops).table? i.table = some t ∧ t.name = i.table ∧
      ((∀ c ∈ i.columns, c ∈ t.columns) ↔ ∀ name ∈ d.columns, t.column? name = d.table.column? name) := by
  obtain ⟨name, hmem⟩ := h.mem_rows
  obtain ⟨t, d, ht, hadded⟩ := of_mem_indexes ops _ hmem
  obtain ⟨hname, hnodup⟩ := of_mem_tables ops _ (Lookup.mem_rows_of_get? ht)
  have hcolumns := IndexDraft.columns_of_build hadded.1
  refine ⟨d, t, hadded, ht, hname, fun hall name hmem => ?_, fun hsame c hc => ?_⟩
  · obtain ⟨c, hc, hfound⟩ := exists_of_mem_left hcolumns hmem
    rw [hfound, ← Table.column?_name hfound]
    exact Table.column?_of_mem hnodup (hall c hc)
  · obtain ⟨name, hmem, hfound⟩ := exists_of_mem_right hcolumns hc
    exact Table.mem_of_column? ((hsame name hmem).trans hfound)

section

/-- A table of sales with one column. -/
def salesDraft (column : String) : TableDraft := { name := "sale", columns := [⟨column, "sale", .int32, true⟩] }

def salesTable (column : String) : Table := ⟨"sale", [⟨column, "sale", .int32, true⟩], .random, none, [], none⟩

/-- The index on the column of a table of sales. -/
def salesIndex (column : String) : IndexDraft := ⟨salesTable column, "by_" ++ column, [column], false⟩

/-- A table is replaced by another of its name. Then an index is added that is declared on the new table, and one that is
declared on the old one. -/
def salesReplaced : List Operation :=
  [.addTable (salesDraft "region"), .addIndex (salesIndex "region"), .removeTable "sale", .addTable (salesDraft "year"),
    .addIndex (salesIndex "year"), .addIndex (salesIndex "region")]

theorem index_of_answer_salesByYear : ∃ i, (runAll salesReplaced).Answers i ∧ i.name = "by_year" ∧
    ∃ d t, Added salesReplaced d i t ∧ (runAll salesReplaced).table? i.table = some t ∧ t.name = i.table ∧
      ((∀ c ∈ i.columns, c ∈ t.columns) ↔ ∀ name ∈ d.columns, t.column? name = d.table.column? name) := by
  have hanswer : (runAll salesReplaced).Answers ⟨"by_year", "sale", [⟨"year", "sale", .int32, true⟩], false⟩ :=
    .inl ⟨"by_year", rfl⟩
  exact ⟨_, hanswer, rfl, index_of_answer salesReplaced hanswer⟩

/-- An index that is declared on a table the catalog had once is added to the table that has its name now, and this has no
column with the name of the index's. -/
theorem index_of_replaced_table : ∃ i t,
    (runAll (salesReplaced.take 1)).table? "sale" = some (salesIndex "region").table ∧
      (runAll salesReplaced).index? "by_region" = some i ∧ i ∈ (runAll salesReplaced).indexesOf "sale" ∧
      (runAll salesReplaced).table? i.table = some t ∧ ∃ c ∈ i.columns, c.name ∉ t.columns.map TableColumn.name := by
  have hindex : (runAll salesReplaced).index? "by_region" =
      some ⟨"by_region", "sale", [⟨"region", "sale", .int32, true⟩], false⟩ := rfl
  have hlisted := List.mem_map_of_mem (f := Prod.snd) (Lookup.mem_rows_of_get? hindex)
  exact ⟨_, salesTable "year", rfl, hindex, mem_indexesOf.2 ⟨hlisted, rfl⟩, rfl, _, List.mem_singleton.2 rfl, by decide⟩

end

end Catalog

end Cascade
