import Mathlib.Data.List.Pairwise
import Mathlib.Data.List.Perm.Basic
import Mathlib.Logic.Relation
import Cascade.Property.Equivalence

/-!
Classes of equal columns are the equivalence closure of the pairs they are made from. Adding a pair makes one class of
those that contain one of its columns and leaves the others (`exists_joins`). So classes stay disjoint, columns that are
in one class stay so, and none get into one class that the pairs do not connect.
-/

namespace Cascade.EquivalenceClasses

variable {classes : List ColumnSet} {l r a b c : ColumnId}

section Positions

variable {s t : ColumnSet} {i j : Nat}

theorem exists_of_findIdx? (h : classes.findIdx? (fun s => decide (c ∈ s)) = some i) :
    ∃ s, classes[i]? = some s ∧ c ∈ s := by
  obtain ⟨hi, hmem, -⟩ := List.findIdx?_eq_some_iff_getElem.1 h
  exact ⟨_, List.getElem?_eq_getElem hi, of_decide_eq_true hmem⟩

theorem not_mem_of_findIdx? (h : classes.findIdx? (fun s => decide (c ∈ s)) = .none) : ∀ s ∈ classes, c ∉ s :=
  fun s hs => of_decide_eq_false (List.findIdx?_eq_none_iff.1 h s hs)

theorem perm_eraseIdx (h : classes[i]? = some s) : classes.Perm (s :: classes.eraseIdx i) := by
  obtain ⟨hi, rfl⟩ := List.getElem?_eq_some_iff.1 h
  exact (List.getElem_cons_eraseIdx_perm hi).symm

theorem perm_modify (f : ColumnSet → ColumnSet) (h : classes[i]? = some s) :
    (classes.modify i f).Perm (f s :: classes.eraseIdx i) := by
  obtain ⟨hi, -⟩ := List.getElem?_eq_some_iff.1 h
  rw [List.modify_eq_set_getElem?, h]
  exact List.set_perm_cons_eraseIdx hi (f s)

end Positions

/-- What adding a pair does to classes: those that contain one of its columns, `touched`, become the class `joined`,
and the `rest` stays. -/
structure Joins (l r : ColumnId) (classes result touched rest : List ColumnSet) (joined : ColumnSet) : Prop where
  before : classes.Perm (touched ++ rest)
  after : result.Perm (joined :: rest)
  mem_joined : ∀ c, c ∈ joined ↔ c = l ∨ c = r ∨ ∃ s ∈ touched, c ∈ s
  touches : ∀ s ∈ touched, l ∈ s ∨ r ∈ s
  left_found : (∃ s ∈ touched, l ∈ s) ∨ ∀ s ∈ classes, l ∉ s
  right_found : (∃ s ∈ touched, r ∈ s) ∨ ∀ s ∈ classes, r ∉ s

namespace Joins

variable {result touched rest : List ColumnSet} {joined s t : ColumnSet} {i j : Nat}

theorem symm (h : Joins l r classes result touched rest joined) : Joins r l classes result touched rest joined where
  before := h.before
  after := h.after
  mem_joined c := (h.mem_joined c).trans or_left_comm
  touches s hs := (h.touches s hs).symm
  left_found := h.right_found
  right_found := h.left_found

theorem of_same (hs : classes[i]? = some s) (hl : l ∈ s) (hr : r ∈ s) :
    Joins l r classes classes [s] (classes.eraseIdx i) s where
  before := perm_eraseIdx hs
  after := perm_eraseIdx hs
  mem_joined c := by grind
  touches := by grind
  left_found := by grind
  right_found := by grind

theorem of_two (hij : i < j) (hs : classes[i]? = some s) (ht : classes[j]? = some t) (hl : l ∈ s) (hr : r ∈ t) :
    Joins l r classes ((classes.eraseIdx j).modify i (· ∪ t)) [t, s] ((classes.eraseIdx j).eraseIdx i) (s ∪ t) := by
  have hs' : (classes.eraseIdx j)[i]? = some s := by rwa [List.getElem?_eraseIdx_of_lt hij]
  exact
    { before := (perm_eraseIdx ht).trans ((perm_eraseIdx hs').cons t)
      after := perm_modify _ hs'
      mem_joined := fun c => by
        rw [SortedSet.mem_union]
        grind
      touches := by grind
      left_found := by grind
      right_found := by grind }

theorem of_one (hs : classes[i]? = some s) (hl : l ∈ s) (hr : ∀ s ∈ classes, r ∉ s) :
    Joins l r classes (classes.modify i (·.insert r)) [s] (classes.eraseIdx i) (s.insert r) where
  before := perm_eraseIdx hs
  after := perm_modify _ hs
  mem_joined c := by
    rw [SortedSet.mem_insert]
    grind
  touches := by grind
  left_found := by grind
  right_found := .inr hr

theorem of_none (hl : ∀ s ∈ classes, l ∉ s) (hr : ∀ s ∈ classes, r ∉ s) :
    Joins l r classes (classes ++ [.ofList [l, r]]) [] classes (.ofList [l, r]) where
  before := .refl _
  after := List.perm_append_singleton _ _
  mem_joined c := by
    rw [SortedSet.mem_ofList]
    simp
  touches := by simp
  left_found := .inr hl
  right_found := .inr hr

end Joins

/-- A pair of different columns is added by joining the classes that contain them, two at most. -/
theorem joins_link (hne : l ≠ r) (classes : List ColumnSet) :
    ∃ touched rest joined, Joins l r classes (link classes (l, r)) touched rest joined := by
  unfold link
  dsimp only
  rw [if_neg hne]
  split
  case h_1 i j hi hj =>
    obtain ⟨s, hs, hl⟩ := exists_of_findIdx? hi
    obtain ⟨t, ht, hr⟩ := exists_of_findIdx? hj
    rcases Nat.lt_trichotomy i j with hij | rfl | hij
    · rw [if_neg (Nat.ne_of_lt hij), Nat.max_eq_right (Nat.le_of_lt hij), Nat.min_eq_left (Nat.le_of_lt hij),
        List.getD_eq_getElem?_getD, ht]
      exact ⟨_, _, _, .of_two hij hs ht hl hr⟩
    · obtain rfl : s = t := Option.some.inj (hs.symm.trans ht)
      rw [if_pos rfl]
      exact ⟨_, _, _, .of_same hs hl hr⟩
    · rw [if_neg (Nat.ne_of_gt hij), Nat.max_eq_left (Nat.le_of_lt hij), Nat.min_eq_right (Nat.le_of_lt hij),
        List.getD_eq_getElem?_getD, hs]
      exact ⟨_, _, _, .symm (.of_two hij ht hs hr hl)⟩
  case h_2 i hi hj =>
    obtain ⟨s, hs, hl⟩ := exists_of_findIdx? hi
    exact ⟨_, _, _, .of_one hs hl (not_mem_of_findIdx? hj)⟩
  case h_3 j hi hj =>
    obtain ⟨t, ht, hr⟩ := exists_of_findIdx? hj
    exact ⟨_, _, _, .symm (.of_one ht hr (not_mem_of_findIdx? hi))⟩
  case h_4 hi hj => exact ⟨_, _, _, .of_none (not_mem_of_findIdx? hi) (not_mem_of_findIdx? hj)⟩

/-- What adding a pair can do. -/
theorem link_cases (classes : List ColumnSet) (p : ColumnId × ColumnId) :
    link classes p = classes ∨
      p.1 ≠ p.2 ∧ ∃ touched rest joined, Joins p.1 p.2 classes (link classes p) touched rest joined := by
  obtain ⟨l, r⟩ := p
  by_cases heq : l = r
  · left
    unfold link
    exact if_pos heq
  · exact .inr ⟨heq, joins_link heq classes⟩

section

variable {result touched rest : List ColumnSet} {joined : ColumnSet}

/-- Whether a class contains both columns. -/
def Together (classes : List ColumnSet) (a b : ColumnId) : Prop := ∃ s ∈ classes, a ∈ s ∧ b ∈ s

theorem Joins.together_self (h : Joins l r classes result touched rest joined) : Together result l r :=
  ⟨joined, h.after.mem_iff.2 (List.mem_cons_self ..), (h.mem_joined l).2 (.inl rfl), (h.mem_joined r).2 (.inr (.inl rfl))⟩

/-- Columns that are in one class stay so. -/
theorem Joins.together (h : Joins l r classes result touched rest joined) (hab : Together classes a b) :
    Together result a b := by
  obtain ⟨s, hs, ha, hb⟩ := hab
  rcases List.mem_append.1 (h.before.mem_iff.1 hs) with hs | hs
  · exact ⟨joined, h.after.mem_iff.2 (List.mem_cons_self ..), (h.mem_joined a).2 (.inr (.inr ⟨s, hs, ha⟩)),
      (h.mem_joined b).2 (.inr (.inr ⟨s, hs, hb⟩))⟩
  · exact ⟨s, h.after.mem_iff.2 (List.mem_cons_of_mem _ hs), ha, hb⟩

theorem together_link (p : ColumnId × ColumnId) (hab : Together classes a b) : Together (link classes p) a b := by
  obtain heq | ⟨-, _, _, _, h⟩ := link_cases classes p
  · rwa [heq]
  · exact h.together hab

theorem together_foldl_link (pairs : List (ColumnId × ColumnId)) (hab : Together classes a b) :
    Together (pairs.foldl link classes) a b :=
  List.foldlRecOn (motive := fun classes => Together classes a b) pairs link hab fun _ h p _ => together_link p h

theorem together_of_mem (classes : List ColumnSet) {pairs : List (ColumnId × ColumnId)} (hne : l ≠ r)
    (h : (l, r) ∈ pairs) : Together (pairs.foldl link classes) l r := by
  induction pairs generalizing classes with
  | nil => cases h
  | cons p pairs ih =>
    rcases List.mem_cons.1 h with rfl | h
    · obtain ⟨_, _, _, hjoins⟩ := joins_link hne classes
      exact together_foldl_link pairs hjoins.together_self
    · exact ih _ h

end

/-- Disjoint classes of at least two columns each. -/
structure Separate (classes : List ColumnSet) : Prop where
  disjoint : classes.Pairwise (fun s t => ∀ c ∈ s, c ∉ t)
  nontrivial : ∀ s ∈ classes, ∃ a ∈ s, ∃ b ∈ s, a ≠ b

theorem Separate.perm {others : List ColumnSet} (h : Separate classes) (hperm : classes.Perm others) : Separate others :=
  ⟨(hperm.pairwise_iff fun h c ht hs => h c hs ht).1 h.disjoint, fun s hs => h.nontrivial s (hperm.mem_iff.2 hs)⟩

namespace Joins

variable {result touched rest : List ColumnSet} {joined : ColumnSet}

/-- No class is left that contains a column of the pair. -/
theorem left_notMem (h : Joins l r classes result touched rest joined) (hclasses : Separate classes) :
    ∀ s ∈ rest, l ∉ s := by
  intro s hs
  rcases h.left_found with ⟨t, ht, hl⟩ | hnone
  · exact (List.pairwise_append.1 (hclasses.perm h.before).disjoint).2.2 t ht s hs l hl
  · exact hnone s (h.before.mem_iff.2 (List.mem_append_right _ hs))

theorem separate (h : Joins l r classes result touched rest joined) (hne : l ≠ r) (hclasses : Separate classes) :
    Separate result := by
  obtain ⟨-, hrest, hacross⟩ := List.pairwise_append.1 (hclasses.perm h.before).disjoint
  refine Separate.perm ⟨List.pairwise_cons.2 ⟨fun t ht c hc => ?_, hrest⟩, List.forall_mem_cons.2 ⟨?_, ?_⟩⟩ h.after.symm
  · rcases (h.mem_joined c).1 hc with rfl | rfl | ⟨s, hs, hc⟩
    · exact h.left_notMem hclasses t ht
    · exact h.symm.left_notMem hclasses t ht
    · exact hacross s hs t ht c hc
  · exact ⟨l, (h.mem_joined l).2 (.inl rfl), r, (h.mem_joined r).2 (.inr (.inl rfl)), hne⟩
  · exact fun t ht => hclasses.nontrivial t (h.before.mem_iff.2 (List.mem_append_right _ ht))

/-- A relation that holds of the pair and within the classes holds within what they become. -/
theorem related {R : ColumnId → ColumnId → Prop} (h : Joins l r classes result touched rest joined)
    (hsymm : ∀ a b, R a b → R b a) (htrans : ∀ a b c, R a b → R b c → R a c) (hpair : R l r)
    (hclasses : ∀ s ∈ classes, ∀ a ∈ s, ∀ b ∈ s, R a b) : ∀ s ∈ result, ∀ a ∈ s, ∀ b ∈ s, R a b := by
  have hleft : ∀ c ∈ joined, R c l := by
    intro c hc
    rcases (h.mem_joined c).1 hc with rfl | rfl | ⟨s, hs, hc⟩
    · exact htrans _ _ _ hpair (hsymm _ _ hpair)
    · exact hsymm _ _ hpair
    · have hs' := h.before.mem_iff.2 (List.mem_append_left _ hs)
      rcases h.touches s hs with hl | hr
      · exact hclasses s hs' c hc l hl
      · exact htrans _ _ _ (hclasses s hs' c hc r hr) (hsymm _ _ hpair)
  intro s hs
  rcases List.mem_cons.1 (h.after.mem_iff.1 hs) with rfl | hs
  · exact fun a ha b hb => htrans _ _ _ (hleft a ha) (hsymm _ _ (hleft b hb))
  · exact hclasses s (h.before.mem_iff.2 (List.mem_append_right _ hs))

end Joins

theorem separate_foldl_link (pairs : List (ColumnId × ColumnId)) (h : Separate classes) :
    Separate (pairs.foldl link classes) := by
  refine List.foldlRecOn (motive := Separate) pairs link h fun classes hclasses p _ => ?_
  obtain heq | ⟨hne, _, _, _, hjoins⟩ := link_cases classes p
  · rwa [heq]
  · exact hjoins.separate hne hclasses

theorem related_foldl_link {R : ColumnId → ColumnId → Prop} (hsymm : ∀ a b, R a b → R b a)
    (htrans : ∀ a b c, R a b → R b c → R a c) {pairs : List (ColumnId × ColumnId)} (hpairs : ∀ p ∈ pairs, R p.1 p.2)
    (h : ∀ s ∈ classes, ∀ a ∈ s, ∀ b ∈ s, R a b) : ∀ s ∈ pairs.foldl link classes, ∀ a ∈ s, ∀ b ∈ s, R a b := by
  refine List.foldlRecOn (motive := fun classes => ∀ s ∈ classes, ∀ a ∈ s, ∀ b ∈ s, R a b) pairs link h
    fun classes hclasses p hp => ?_
  obtain heq | ⟨-, _, _, _, hjoins⟩ := link_cases classes p
  · rwa [heq]
  · exact hjoins.related hsymm htrans (hpairs p hp) hclasses

theorem perm_ofPairs (pairs : List (ColumnId × ColumnId)) : (ofPairs pairs).classes.Perm (pairs.foldl link []) :=
  List.mergeSort_perm _ _

/-- Whatever relates the columns of every pair relates the columns of every class. -/
theorem related_ofPairs {R : ColumnId → ColumnId → Prop} (hsymm : ∀ a b, R a b → R b a)
    (htrans : ∀ a b c, R a b → R b c → R a c) {pairs : List (ColumnId × ColumnId)} (h : ∀ p ∈ pairs, R p.1 p.2) :
    ∀ s ∈ (ofPairs pairs).classes, ∀ a ∈ s, ∀ b ∈ s, R a b := fun s hs =>
  related_foldl_link hsymm htrans h (fun _ hs => absurd hs List.not_mem_nil) s ((perm_ofPairs pairs).mem_iff.1 hs)

theorem separate_ofPairs (pairs : List (ColumnId × ColumnId)) : Separate (ofPairs pairs).classes :=
  (separate_foldl_link pairs ⟨.nil, fun _ hs => absurd hs List.not_mem_nil⟩).perm (perm_ofPairs pairs).symm

namespace Separate

variable {s t : ColumnSet} {others : List ColumnSet}

theorem eq_of_mem (h : Separate classes) (hs : s ∈ classes) (ht : t ∈ classes) (hcs : c ∈ s) (hct : c ∈ t) : s = t := by
  have : Std.Symm (fun s t : ColumnSet => ∀ c ∈ s, c ∉ t) := ⟨fun _ _ h c ht hs => h c hs ht⟩
  by_contra hne
  exact h.disjoint.forall hs ht hne c hcs hct

theorem two_le_size (h : Separate classes) (hs : s ∈ classes) : 2 ≤ s.size := by
  obtain ⟨a, ha, b, hb, hne⟩ := h.nontrivial s hs
  rw [SortedSet.mem_def] at ha hb
  unfold SortedSet.size
  match hlist : s.toList with
  | [] => simp [hlist] at ha
  | [x] =>
    rw [hlist, List.mem_singleton] at ha hb
    exact absurd (ha.trans hb.symm) hne
  | _ :: _ :: _ => simp

theorem trans (h : Separate classes) (hab : Together classes a b) (hbc : Together classes b c) :
    Together classes a c := by
  obtain ⟨s, hs, ha, hb⟩ := hab
  obtain ⟨t, ht, hb', hc⟩ := hbc
  obtain rfl := h.eq_of_mem hs ht hb hb'
  exact ⟨s, hs, ha, hc⟩

theorem nodup (h : Separate classes) : classes.Nodup := by
  refine h.disjoint.imp_of_mem fun {s t} hs _ hdisjoint => ?_
  rintro rfl
  obtain ⟨a, ha, -⟩ := h.nontrivial s hs
  exact hdisjoint a ha ha

/-- Which columns are in one class determines the classes. -/
theorem mem_of_together (h : Separate classes) (hothers : Separate others)
    (hsame : ∀ a b, a ≠ b → (Together classes a b ↔ Together others a b)) (hs : s ∈ classes) : s ∈ others := by
  obtain ⟨a, ha, b, hb, hne⟩ := h.nontrivial s hs
  obtain ⟨t, ht, hat, -⟩ := (hsame a b hne).1 ⟨s, hs, ha, hb⟩
  suffices hst : s = t from hst ▸ ht
  refine SortedSet.ext_mem fun c => ?_
  by_cases hac : a = c
  · subst hac
    exact iff_of_true ha hat
  · constructor
    · intro hc
      obtain ⟨u, hu, hau, hcu⟩ := (hsame a c hac).1 ⟨s, hs, ha, hc⟩
      rwa [hothers.eq_of_mem ht hu hat hau]
    · intro hc
      obtain ⟨u, hu, hau, hcu⟩ := (hsame a c hac).2 ⟨t, ht, hat, hc⟩
      rwa [h.eq_of_mem hs hu ha hau]

theorem perm_of_together (h : Separate classes) (hothers : Separate others)
    (hsame : ∀ a b, a ≠ b → (Together classes a b ↔ Together others a b)) : classes.Perm others :=
  (List.perm_ext_iff_of_nodup h.nodup hothers.nodup).2 fun _ =>
    ⟨h.mem_of_together hothers hsame, hothers.mem_of_together h fun a b hne => (hsame a b hne).symm⟩

end Separate

theorem pairwise_classes (pairs : List (ColumnId × ColumnId)) :
    (ofPairs pairs).classes.Pairwise (fun s t => (compare s t).isLE = true) :=
  List.pairwise_mergeSort (fun _ _ _ => Std.TransCmp.isLE_trans) (fun s t => by
    rw [Std.OrientedOrd.eq_swap (a := t)]
    cases compare s t <;> rfl) _

theorem areEquivalent_iff {e : EquivalenceClasses} : e.areEquivalent l r = true ↔ l = r ∨ Together e.classes l r := by
  simp only [areEquivalent, Together, Bool.or_eq_true, decide_eq_true_iff, List.any_eq_true, Bool.and_eq_true]

/-- Columns that a chain of pairs connects, in whichever direction each of them is read. -/
def Connected (pairs : List (ColumnId × ColumnId)) : ColumnId → ColumnId → Prop :=
  Relation.EqvGen fun l r => (l, r) ∈ pairs

theorem areEquivalent_ofPairs {pairs : List (ColumnId × ColumnId)} :
    (ofPairs pairs).areEquivalent l r = true ↔ Connected pairs l r := by
  rw [areEquivalent_iff]
  constructor
  · rintro (rfl | ⟨s, hs, hl, hr⟩)
    · exact .refl _
    · exact related_ofPairs .symm .trans (fun p hp => .rel _ _ hp) s hs l hl r hr
  · intro h
    induction h with
    | rel l r h =>
      by_cases hne : l = r
      · exact .inl hne
      · obtain ⟨s, hs, hlr⟩ := together_of_mem [] hne h
        exact .inr ⟨s, (perm_ofPairs pairs).mem_iff.2 hs, hlr⟩
    | refl => exact .inl rfl
    | symm l r _ ih => exact ih.imp Eq.symm fun ⟨s, hs, hl, hr⟩ => ⟨s, hs, hr, hl⟩
    | trans a b c _ _ hab hbc =>
      rcases hab with rfl | hab
      · exact hbc
      · rcases hbc with rfl | hbc
        · exact .inr hab
        · exact .inr ((separate_ofPairs pairs).trans hab hbc)

/-- Classes in order are determined by the columns they make equivalent. -/
theorem ofPairs_eq_iff {pairs others : List (ColumnId × ColumnId)} :
    ofPairs pairs = ofPairs others ↔ ∀ l r, Connected pairs l r ↔ Connected others l r := by
  constructor
  · intro h l r
    rw [← areEquivalent_ofPairs, ← areEquivalent_ofPairs, h]
  · intro h
    have hsame : ∀ a b, a ≠ b → (Together (ofPairs pairs).classes a b ↔ Together (ofPairs others).classes a b) := by
      intro a b hne
      have hab := h a b
      rw [← areEquivalent_ofPairs, ← areEquivalent_ofPairs, areEquivalent_iff, areEquivalent_iff] at hab
      simpa [hne] using hab
    have hperm := (separate_ofPairs pairs).perm_of_together (separate_ofPairs others) hsame
    have hantisymm : ∀ s t : ColumnSet, (compare s t).isLE = true → (compare t s).isLE = true → s = t :=
      fun s t hst hts => Std.LawfulEqOrd.eq_of_compare (Std.OrientedCmp.isLE_antisymm hst hts)
    have hclasses : (ofPairs pairs).classes = (ofPairs others).classes :=
      hperm.eq_of_pairwise (fun s t _ _ => hantisymm s t) (pairwise_classes pairs) (pairwise_classes others)
    cases hp : ofPairs pairs
    cases ho : ofPairs others
    rw [hp, ho] at hclasses
    exact congrArg _ hclasses

/-- The classes made from pairs are the equivalence closure of these: columns are equivalent exactly if pairs connect
them, the classes are disjoint and have at least two columns each, and pairs with one closure make one structure. -/
theorem ofPairs_closure :
    (∀ pairs l r, (ofPairs pairs).areEquivalent l r = true ↔ Connected pairs l r) ∧
      (∀ pairs, (ofPairs pairs).classes.Pairwise (fun s t => s.disjoint t = true) ∧
        ∀ s ∈ (ofPairs pairs).classes, 2 ≤ s.size) ∧
      ∀ pairs others, ofPairs pairs = ofPairs others ↔ ∀ l r, Connected pairs l r ↔ Connected others l r := by
  refine ⟨fun pairs l r => areEquivalent_ofPairs, fun pairs => ?_, fun pairs others => ofPairs_eq_iff⟩
  have hseparate := separate_ofPairs pairs
  exact ⟨hseparate.disjoint.imp SortedSet.disjoint_iff.2, fun s hs => hseparate.two_le_size hs⟩

end Cascade.EquivalenceClasses
