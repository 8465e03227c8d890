import Cascade.Algebra.Builder
import Cascade.Proofs.Sequence
import Cascade.Proofs.Stateful

/-!
Registered columns. A column of a table is stored as the first one that was registered under its alias and name
(`Columns.get_add`), and a computed column as it is. So what is stored has the name and the alias that were asked for,
but it is a column of another table if that was registered before under the same alias.
-/

namespace Cascade

/-- The alias under which the table of a column is read. -/
def ColumnInfo.relation? (c : ColumnInfo) : Option String := c.origin.map ColumnOrigin.relation

/-- A column of a table that is read under an alias. -/
def Table.columnInfo (t : Table) (relation : String) (c : TableColumn) : ColumnInfo :=
  ⟨c.name, c.dataType, some ⟨t.name, relation⟩⟩

namespace Columns

variable {cs ds : Columns} {id : ColumnId} {c d info : ColumnInfo}

theorem isNamed_iff {relation name : String} :
    isNamed relation name c = true ↔ c.relation? = some relation ∧ c.name = name := by
  simp [isNamed, ColumnInfo.relation?]

theorem le_size_of_get (h : cs.get id = .ok info) : id ≤ cs.size := by
  unfold get at h
  split at h
  · cases h
  · split at h
    · rename_i hentry
      exact Nat.le_of_pred_lt (Array.getElem?_eq_some_iff.1 hentry).1
    · cases h

theorem get_append_self (cs : Columns) (c : ColumnInfo) : (cs.append c).2.get (cs.append c).1 = .ok c := by
  unfold get append
  simp [size]

theorem get_append (c : ColumnInfo) (h : cs.get id = .ok info) : (cs.append c).2.get id = .ok info := by
  unfold get at *
  split at h
  · cases h
  · rename_i hid
    rw [if_neg hid]
    split at h
    · rename_i hentry
      have hpushed : (cs.append c).2.entries[id - 1]? = cs.entries[id - 1]? :=
        (Array.getElem?_push_lt (Array.getElem?_eq_some_iff.1 hentry).1).trans (Array.getElem?_eq_getElem _).symm
      rw [hpushed, hentry]
      exact h
    · cases h

/-- The first of some columns that has the alias and the name of a table's column. -/
def firstLike (infos : List ColumnInfo) (c : ColumnInfo) : Option ColumnInfo :=
  c.relation?.bind fun relation => infos.find? (isNamed relation c.name)

/-- What is stored for a column that is added. -/
def kept (cs : Columns) (c : ColumnInfo) : ColumnInfo := (firstLike cs.entries.toList c).getD c

theorem find?_cases (cs : Columns) (relation name : String) :
    cs.find? relation name = none ∧ cs.entries.toList.find? (isNamed relation name) = none ∨
      ∃ id d, cs.find? relation name = some id ∧ cs.entries.toList.find? (isNamed relation name) = some d ∧
        cs.get id = .ok d := by
  unfold find?
  cases h : cs.entries.findIdx? (isNamed relation name) with
  | none =>
    left
    exact ⟨rfl, List.find?_eq_none.2 fun x hx => by simp [Array.findIdx?_eq_none_iff.1 h x (Array.mem_toList_iff.1 hx)]⟩
  | some i =>
    right
    obtain ⟨hi, hnamed, hbefore⟩ := Array.findIdx?_eq_some_iff_getElem.1 h
    refine ⟨i + 1, cs.entries[i], rfl, ?_, ?_⟩
    · exact List.find?_eq_some_iff_getElem.2 ⟨hnamed, i, hi, rfl, fun j hj => by simpa using hbefore j hj⟩
    · unfold get
      simp [Array.getElem?_eq_getElem hi]

/-- A column is added as a new one, or it was registered before. -/
theorem add_cases (cs : Columns) (c : ColumnInfo) :
    firstLike cs.entries.toList c = none ∧ cs.add c = cs.append c ∨
      ∃ id d, firstLike cs.entries.toList c = some d ∧ cs.add c = (id, cs) ∧ cs.get id = .ok d := by
  unfold firstLike ColumnInfo.relation? add
  cases c.origin with
  | none => exact .inl ⟨rfl, rfl⟩
  | some o =>
    obtain ⟨hfind, hnone⟩ | ⟨id, d, hfind, hd, hget⟩ := cs.find?_cases o.relation c.name
    · exact .inl ⟨hnone, by simp only [hfind]⟩
    · exact .inr ⟨id, d, hd, by simp only [hfind], hget⟩

theorem get_add (cs : Columns) (c : ColumnInfo) : (cs.add c).2.get (cs.add c).1 = .ok (cs.kept c) := by
  unfold kept
  obtain ⟨hnone, hadd⟩ | ⟨id, d, hd, hadd, hget⟩ := cs.add_cases c
  · rw [hnone, hadd, get_append_self]
    rfl
  · rw [hd, hadd]
    exact hget

/-- Registered columns stay. -/
theorem get_of_add (c : ColumnInfo) (h : cs.get id = .ok info) : (cs.add c).2.get id = .ok info := by
  obtain ⟨-, hadd⟩ | ⟨_, _, -, hadd, -⟩ := cs.add_cases c
  · rw [hadd]
    exact get_append c h
  · rwa [hadd]

theorem mem_of_firstLike {infos : List ColumnInfo} (h : firstLike infos c = some d) :
    d ∈ infos ∧ d.relation? = c.relation? ∧ d.name = c.name := by
  obtain ⟨relation, hrelation, hfind⟩ := Option.bind_eq_some_iff.1 h
  obtain ⟨hsame, hname⟩ := isNamed_iff.1 (List.find?_some hfind)
  exact ⟨List.mem_of_find?_eq_some hfind, hsame.trans hrelation.symm, hname⟩

theorem firstLike_congr (infos : List ColumnInfo) (hrelation : c.relation? = d.relation?) (hname : c.name = d.name) :
    firstLike infos c = firstLike infos d := by
  unfold firstLike
  rw [hrelation, hname]

theorem firstLike_getD_like (infos : List ColumnInfo) (c : ColumnInfo) :
    ((firstLike infos c).getD c).relation? = c.relation? ∧ ((firstLike infos c).getD c).name = c.name := by
  cases h : firstLike infos c with
  | none => exact ⟨rfl, rfl⟩
  | some d => exact (mem_of_firstLike h).2

theorem firstLike_getD_mem {infos : List ColumnInfo} (hc : c ∈ infos) : (firstLike infos c).getD c ∈ infos := by
  cases h : firstLike infos c with
  | none => exact hc
  | some d => exact (mem_of_firstLike h).1

/-- A column is stored as it is added just if no other one was registered before under its alias and name. -/
theorem kept_eq_iff (cs : Columns) (c : ColumnInfo) :
    cs.kept c = c ↔ ∀ d, firstLike cs.entries.toList c = some d → d = c := by
  unfold kept
  cases firstLike cs.entries.toList c with
  | none => simp
  | some d => simp

theorem firstLike_append (l r : List ColumnInfo) (c : ColumnInfo) :
    firstLike (l ++ r) c = (firstLike l c).or (firstLike r c) := by
  unfold firstLike
  cases c.relation? with
  | none => rfl
  | some relation => exact List.find?_append ..

/-- A column in front is the first of those like it. -/
theorem firstLike_cons (c d : ColumnInfo) (rest : List ColumnInfo) (hrelation : d.relation? = c.relation?)
    (hname : d.name = c.name) : firstLike (d :: rest) c = c.relation?.map fun _ => d := by
  unfold firstLike
  cases h : c.relation? with
  | none => rfl
  | some relation => exact List.find?_cons_of_pos (isNamed_iff.2 ⟨hrelation.trans h, hname⟩)

theorem firstLike_cons_of_ne (c d : ColumnInfo) (rest : List ColumnInfo)
    (h : ¬ (d.relation? = c.relation? ∧ d.name = c.name)) : firstLike (d :: rest) c = firstLike rest c := by
  unfold firstLike
  cases hc : c.relation? with
  | none => rfl
  | some relation => exact List.find?_cons_of_neg fun hnamed => h (hc ▸ isNamed_iff.1 hnamed)

/-- A column that was registered before makes no difference to the first columns. -/
theorem firstLike_add (cs : Columns) (c d : ColumnInfo) (rest : List ColumnInfo) :
    firstLike ((cs.add c).2.entries.toList ++ rest) d = firstLike (cs.entries.toList ++ c :: rest) d := by
  obtain ⟨-, hadd⟩ | ⟨id, e, he, hadd, -⟩ := cs.add_cases c
  · rw [hadd, append]
    simp
  · rw [hadd, firstLike_append, firstLike_append]
    by_cases hlike : c.relation? = d.relation? ∧ c.name = d.name
    · rw [← firstLike_congr _ hlike.1 hlike.2, he]
      rfl
    · rw [firstLike_cons_of_ne d c rest hlike]

/-- Registers columns one after the other. -/
def addAll (cs : Columns) : List ColumnInfo → List ColumnId × Columns
  | [] => ([], cs)
  | c :: rest =>
    let (id, cs) := cs.add c
    let (ids, cs) := cs.addAll rest
    (id :: ids, cs)

theorem get_addAll (infos : List ColumnInfo) (h : cs.get id = .ok info) : (cs.addAll infos).2.get id = .ok info := by
  induction infos generalizing cs with
  | nil => exact h
  | cons c infos ih => exact ih (get_of_add c h)

/-- What is stored for columns that are added one after the other: for each the first of all that is like it. -/
theorem forall₂_addAll (cs : Columns) (infos : List ColumnInfo) :
    List.Forall₂ (fun c id => (cs.addAll infos).2.get id = .ok ((firstLike (cs.entries.toList ++ infos) c).getD c)) infos
      (cs.addAll infos).1 := by
  induction infos generalizing cs with
  | nil => exact .nil
  | cons c infos ih =>
    have hrest := ih (cs.add c).2
    simp only [firstLike_add] at hrest
    refine .cons ((get_addAll infos (cs.get_add c)).trans (congrArg Except.ok ?_)) hrest
    unfold kept
    rw [firstLike_append, firstLike_cons c c infos rfl rfl]
    cases firstLike cs.entries.toList c with
    | none => cases c.relation? <;> rfl
    | some d => rfl

/-- Columns of tables that have one alias and one name are the same. -/
def Unambiguous (infos : List ColumnInfo) : Prop :=
  ∀ c ∈ infos, ∀ d ∈ infos, c.relation? ≠ none → d.relation? = c.relation? → d.name = c.name → d = c

instance (infos : List ColumnInfo) : Decidable (Unambiguous infos) :=
  inferInstanceAs (Decidable (∀ c ∈ infos, ∀ d ∈ infos, c.relation? ≠ none → d.relation? = c.relation? →
    d.name = c.name → d = c))

theorem firstLike_getD_iff (infos : List ColumnInfo) :
    (∀ c ∈ infos, (firstLike infos c).getD c = c) ↔ Unambiguous infos := by
  constructor
  · intro h c hc d hd hnamed hrelation hname
    have hfirst : ∃ e, firstLike infos c = some e := by
      obtain ⟨relation, hcr⟩ := Option.ne_none_iff_exists'.1 hnamed
      unfold firstLike
      rw [hcr, Option.bind_some]
      exact Option.isSome_iff_exists.1 (List.find?_isSome.2 ⟨c, hc, isNamed_iff.2 ⟨hcr, rfl⟩⟩)
    obtain ⟨e, he⟩ := hfirst
    have hec := h c hc
    have hed := h d hd
    rw [firstLike_congr infos hrelation hname, he] at hed
    rw [he] at hec
    exact hed.symm.trans hec
  · intro h c hc
    cases hfirst : firstLike infos c with
    | none => rfl
    | some d =>
      obtain ⟨hd, hrelation, hname⟩ := mem_of_firstLike hfirst
      obtain ⟨relation, hcr, -⟩ := Option.bind_eq_some_iff.1 hfirst
      exact h c hc d hd (Option.ne_none_iff_exists'.2 ⟨relation, hcr⟩) hrelation hname

/-- Columns that are added one after the other are all stored as they are added just if they are unambiguous. -/
theorem forall₂_addAll_iff (infos : List ColumnInfo) :
    List.Forall₂ (fun c id => (empty.addAll infos).2.get id = .ok c) infos (empty.addAll infos).1 ↔
      Unambiguous infos := by
  have hstored : List.Forall₂ (fun c id => (empty.addAll infos).2.get id = .ok ((firstLike infos c).getD c)) infos
      (empty.addAll infos).1 := forall₂_addAll empty infos
  exact (forall₂_ok_iff hstored).trans (firstLike_getD_iff infos)

end Columns

/-! Scans. -/

theorem Table.column?_name {t : Table} {name : String} {c : TableColumn} (h : t.column? name = some c) :
    c.name = name := by
  simpa using List.find?_some h

/-- Registering columns of a table leaves the registered ones, and what is stored for any column of the table. -/
structure Table.Registers (t : Table) (relation : String) (cs ds : Columns) : Prop where
  stays : ∀ {id info}, cs.get id = .ok info → ds.get id = .ok info
  kept : ∀ {name c}, t.column? name = some c → ds.kept (t.columnInfo relation c) = cs.kept (t.columnInfo relation c)

namespace Table.Registers

variable {t : Table} {relation name : String} {c : TableColumn} {cs ds es : Columns}

theorem refl (t : Table) (relation : String) (cs : Columns) : t.Registers relation cs cs := ⟨id, fun _ => rfl⟩

theorem trans (h : t.Registers relation cs ds) (k : t.Registers relation ds es) : t.Registers relation cs es :=
  ⟨fun hget => k.stays (h.stays hget), fun hc => (k.kept hc).trans (h.kept hc)⟩

/-- Columns of one table that have one name are the same. -/
theorem add (hc : t.column? name = some c) (cs : Columns) :
    t.Registers relation cs (cs.add (t.columnInfo relation c)).2 where
  stays := Columns.get_of_add _
  kept := by
    intro other d hd
    have hfirst := Columns.firstLike_add cs (t.columnInfo relation c) (t.columnInfo relation d) []
    rw [List.append_nil, Columns.firstLike_append] at hfirst
    unfold Columns.kept
    rw [hfirst]
    by_cases hname : c.name = d.name
    · have hsame : name = other := (column?_name hc).symm.trans (hname.trans (column?_name hd))
      subst hsame
      cases hc.symm.trans hd
      rw [Columns.firstLike_cons _ _ _ rfl rfl]
      cases Columns.firstLike cs.entries.toList (t.columnInfo relation c) <;> rfl
    · rw [Columns.firstLike_cons_of_ne _ _ _ fun h => hname h.2]
      exact congrArg (Option.getD · _) (Option.or_none ..)

end Table.Registers

namespace Query

/-- Names are looked up in the table, and the columns of these names are registered. -/
theorem yields_registered (t : Table) (relation : String) {f : String → BuildM ColumnId}
    (hf : ∀ name s, Yields (f name) s (fun id u => ∃ c, t.column? name = some c ∧
      (id, u.columns) = s.columns.add (t.columnInfo relation c)) (fun _ _ => True)) (names : List String) (s : Session) :
    Yields (names.mapM f) s (fun ids u => t.Registers relation s.columns u.columns ∧
      List.Forall₂ (fun name id => ∃ c, t.column? name = some c ∧
        u.columns.get id = .ok (s.columns.kept (t.columnInfo relation c))) names ids) (fun _ _ => True) := by
  induction names generalizing s with
  | nil => exact .of_pure ⟨.refl .., .nil⟩
  | cons name names ih =>
    rw [List.mapM_cons]
    refine (hf name s).bind ?_
    rintro id u ⟨c, hc, hadd⟩
    have hid : id = (s.columns.add (t.columnInfo relation c)).1 := congrArg Prod.fst hadd
    have hu : u.columns = (s.columns.add (t.columnInfo relation c)).2 := congrArg Prod.snd hadd
    have hfirst : t.Registers relation s.columns u.columns := hu ▸ .add hc s.columns
    refine (ih u).bind ?_
    rintro ids v ⟨hrest, hids⟩
    refine .of_pure ⟨hfirst.trans hrest, .cons ⟨c, hc, hrest.stays ?_⟩ (hids.imp ?_)⟩
    · rw [hid, hu]
      exact s.columns.get_add _
    · rintro name' id' ⟨d, hd, hget⟩
      exact ⟨d, hd, hget.trans (congrArg _ (hfirst.kept hd))⟩

theorem yields_addColumn (info : ColumnInfo) (s : Session) :
    Yields (Session.addColumn info) s (fun id u => (id, u.columns) = s.columns.add info) (fun _ _ => True) :=
  .of_modifyGet rfl

/-- For the columns of a scan is stored what is stored for these columns of the table. -/
theorem yields_scanColumns (t : Table) (relation : String) (names : List String) (s : Session) :
    Yields (scanColumns t relation names) s (fun q u => List.Forall₂ (fun name id => ∃ c, t.column? name = some c ∧
      u.columns.get id = .ok (s.columns.kept (t.columnInfo relation c))) names q.columns) (fun _ _ => True) := by
  unfold scanColumns
  refine (yields_registered t relation (fun name u => ?_) names s).bind ?_
  · split
    · rename_i c hc
      exact (yields_addColumn _ u).mono (fun _ _ hadd => ⟨c, hc, hadd⟩) fun _ _ _ => trivial
    · exact .of_throw trivial
  · rintro columns u ⟨-, hcolumns⟩
    dsimp only
    split
    · refine (Yields.of_pure (Q := fun _ v => v = u) rfl).bind ?_
      rintro _ _ rfl
      refine .bind_modifyGet (.of_pure ?_)
      exact hcolumns
    · split
      · refine (Yields.map (Q := fun _ v => ∃ info, v.columns = (u.columns.add info).2)
          ((yields_addColumn _ u).mono (fun _ v hadd => ⟨_, congrArg Prod.snd hadd⟩) fun _ _ _ => trivial)).bind ?_
        rintro _ v ⟨info, hv⟩
        refine .bind_modifyGet (.of_pure (hcolumns.imp ?_))
        rintro name id ⟨c, hc, hget⟩
        exact ⟨c, hc, hv ▸ Columns.get_of_add info hget⟩
      · exact (Yields.of_throw (Q := fun _ _ => False) trivial).bind fun _ _ h => h.elim

end Query

/-- For the columns of a scan of a whole table is stored what is stored for the columns of the table. -/
theorem Builder.yields_get (catalog : Catalog) (b : Builder) (table relation : String) (s : Session) :
    Yields (b.get catalog table relation) s (fun b' u => ∃ t q, catalog.require table = .ok t ∧ b'.current = some q ∧
      List.Forall₂ (fun column id => ∃ c, t.column? column.name = some c ∧
        u.columns.get id = .ok (s.columns.kept (t.columnInfo relation c))) t.columns q.columns) (fun _ _ => True) := by
  refine .bind_lift (fun t ht => ?_) fun _ _ => trivial
  unfold getColumns checkEmpty
  split
  · exact (Yields.of_throw (Q := fun _ _ => False) trivial).bind fun _ _ h => h.elim
  · refine (Yields.of_pure (Q := fun _ u => u = s) rfl).bind ?_
    rintro _ _ rfl
    refine .bind_lift (fun t' ht' => .map ?_) fun _ _ => trivial
    cases ht.symm.trans ht'
    refine (Query.yields_scanColumns t relation _ _).mono (fun q u hq => ?_) fun _ _ _ => trivial
    exact ⟨t, q, ht, rfl, List.forall₂_map_left_iff.1 hq⟩

/-- What is stored for columns that are added one after the other, or for those of a scan, has the alias and the name
that were asked for. It is the column that was asked for, with its table and type, just if no other column was
registered before under this alias and name. -/
theorem registered_faithful_iff (infos : List ColumnInfo) (catalog : Catalog) (b : Builder) (table relation : String)
    (s : Session) :
    List.Forall₂ (fun c id => ∃ d ∈ infos, (Columns.empty.addAll infos).2.get id = .ok d ∧
        d.relation? = c.relation? ∧ d.name = c.name) infos (Columns.empty.addAll infos).1 ∧
    (List.Forall₂ (fun c id => (Columns.empty.addAll infos).2.get id = .ok c) infos (Columns.empty.addAll infos).1 ↔
      Columns.Unambiguous infos) ∧
    ∀ b' s', (b.get catalog table relation).run s = (.ok b', s') →
      ∃ t q, catalog.require table = .ok t ∧ b'.current = some q ∧
        List.Forall₂ (fun column id => ∃ c stored, t.column? column.name = some c ∧ s'.columns.get id = .ok stored ∧
          stored.relation? = some relation ∧ stored.name = column.name ∧
          (stored = t.columnInfo relation c ↔
            ∀ d, Columns.firstLike s.columns.entries.toList (t.columnInfo relation c) = some d →
              d = t.columnInfo relation c)) t.columns q.columns := by
  refine ⟨?_, Columns.forall₂_addAll_iff infos, ?_⟩
  · have hstored : List.Forall₂ (fun c id => (Columns.empty.addAll infos).2.get id =
        .ok ((Columns.firstLike infos c).getD c)) infos (Columns.empty.addAll infos).1 :=
      Columns.forall₂_addAll .empty infos
    refine ((List.forall₂_and_left _ _).2 ⟨fun c hc => hc, hstored⟩).imp ?_
    rintro c id ⟨hc, hget⟩
    exact ⟨_, Columns.firstLike_getD_mem hc, hget, Columns.firstLike_getD_like infos c⟩
  · intro b' s' hrun
    obtain ⟨t, q, ht, hq, hcolumns⟩ := (b.yields_get catalog table relation s).of_ok hrun
    refine ⟨t, q, ht, hq, hcolumns.imp ?_⟩
    rintro column id ⟨c, hc, hget⟩
    obtain ⟨hrelation, hname⟩ := Columns.firstLike_getD_like s.columns.entries.toList (t.columnInfo relation c)
    exact ⟨c, _, hc, hget, hrelation, hname.trans (Table.column?_name hc), s.columns.kept_eq_iff _⟩

section

def customerTable : Table := ⟨"customer", [⟨"id", "customer", .int32, false⟩], .random, none, [], none⟩

def orderTable : Table := ⟨"order", [⟨"id", "order", .string, false⟩], .random, none, [], none⟩

/-- A catalog with two tables that have a column of one name, but of different types. -/
def ordersCatalog : Catalog := ⟨⟨[("customer", customerTable), ("order", orderTable)]⟩, ∅⟩

/-- The columns of the two tables, read under these aliases. -/
def ordersColumns (customer order : String) : List ColumnInfo :=
  customerTable.columns.map (customerTable.columnInfo customer) ++ orderTable.columns.map (orderTable.columnInfo order)

/-- The session after the table of customers was scanned. -/
def customersRead (relation : String) : Session :=
  ((Builder.empty.get ordersCatalog "customer" relation).run .empty).2

/-- The scan of the table of orders after that. -/
def ordersScan (customer order : String) : Except PlanError Builder × Session :=
  (Builder.empty.get ordersCatalog "order" order).run (customersRead customer)

theorem exists_ordersScan {customer order : String} {ids : List ColumnId}
    (h : (ordersScan customer order).1.toOption.bind (fun b => b.current.map Query.columns) = some ids) :
    ∃ b q, ordersScan customer order = (.ok b, (ordersScan customer order).2) ∧ b.current = some q ∧ q.columns = ids := by
  cases hscan : ordersScan customer order with
  | mk r s =>
    rw [hscan] at h
    cases r with
    | error e => cases h
    | ok b =>
      obtain ⟨q, hq, hcolumns⟩ := Option.map_eq_some_iff.1 h
      exact ⟨b, q, rfl, hq, hcolumns⟩

/-- Under different aliases the columns of both tables are stored as they are. -/
theorem registered_faithful_iff_orders :
    List.Forall₂ (fun c id => (Columns.empty.addAll (ordersColumns "c" "o")).2.get id = .ok c) (ordersColumns "c" "o")
      (Columns.empty.addAll (ordersColumns "c" "o")).1 ∧
    ∃ b q s, ordersScan "c" "o" = (.ok b, s) ∧ b.current = some q ∧
      List.Forall₂ (fun column id => s.columns.get id = .ok (orderTable.columnInfo "o" column)) orderTable.columns
        q.columns := by
  obtain ⟨b, q, hscan, hq, -⟩ : ∃ b q, ordersScan "c" "o" = (.ok b, (ordersScan "c" "o").2) ∧ b.current = some q ∧
    q.columns = [2] := exists_ordersScan (by decide +kernel)
  obtain ⟨-, hfaithful, hscanned⟩ :=
    registered_faithful_iff (ordersColumns "c" "o") ordersCatalog .empty "order" "o" (customersRead "c")
  obtain ⟨t, q', ht, hq', hcolumns⟩ := hscanned _ _ hscan
  obtain rfl : orderTable = t := Except.ok.inj ht
  obtain rfl : q = q' := Option.some.inj (hq.symm.trans hq')
  have hfresh : Columns.firstLike (customersRead "c").columns.entries.toList
      (orderTable.columnInfo "o" ⟨"id", "order", .string, false⟩) = none := by decide +kernel
  obtain ⟨id, ids, ⟨c, stored, hc, hget, -, -, hiff⟩, hrest, hids⟩ := List.forall₂_cons_left_iff.1 hcolumns
  obtain rfl : (⟨"id", "order", .string, false⟩ : TableColumn) = c := Option.some.inj hc
  obtain rfl : ids = [] := List.forall₂_nil_left_iff.1 hrest
  have hstored := hiff.2 fun d hd => absurd (hfresh.symm.trans hd) (Option.some_ne_none d).symm
  exact ⟨hfaithful.2 (by decide), b, q, _, hscan, hq,
    hids ▸ .cons (hget.trans (congrArg Except.ok hstored)) .nil⟩

/-- Under one alias the scan of the second table gets the column of the first, with its type. -/
theorem get_registers_other_table :
    ¬ List.Forall₂ (fun c id => (Columns.empty.addAll (ordersColumns "t" "t")).2.get id = .ok c)
      (ordersColumns "t" "t") (Columns.empty.addAll (ordersColumns "t" "t")).1 ∧
    ∃ b q s, ordersScan "t" "t" = (.ok b, s) ∧ b.current = some q ∧ q.columns = [1] ∧
      s.columns.get 1 = .ok ⟨"id", .int32, some ⟨"customer", "t"⟩⟩ := by
  obtain ⟨b, q, hscan, hq, hcolumns⟩ : ∃ b q, ordersScan "t" "t" = (.ok b, (ordersScan "t" "t").2) ∧
    b.current = some q ∧ q.columns = [1] := exists_ordersScan (by decide +kernel)
  have hstored : ((ordersScan "t" "t").2.columns.get 1).toOption = some ⟨"id", .int32, some ⟨"customer", "t"⟩⟩ := by
    decide +kernel
  exact ⟨mt (Columns.forall₂_addAll_iff _).1 (by decide), b, q, _, hscan, hq, hcolumns, eq_ok_of_toOption hstored⟩

end

end Cascade
