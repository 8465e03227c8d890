import Mathlib.Data.List.Nodup
import Mathlib.Data.List.Perm.Basic
import Cascade.Derivation.Logical
import Cascade.Proofs.Properties.Bounds
import Cascade.Proofs.Properties.Conjuncts

/-!
Derived properties of inner joins. They depend on the inputs at the bottom and the conjuncts, not on the order and
grouping of the inputs or the place of a conjunct.
-/

namespace Cascade

namespace SortedMap

variable {α β : Type} [Ord α] [Std.TransOrd α] {m n : SortedMap α β}

theorem eq_of_mem_entries {x y : α × β} (hx : x ∈ m.entries) (hy : y ∈ m.entries) (h : x.1 = y.1) : x = y :=
  List.inj_on_of_nodup_map m.keys.nodup_toList hx hy h

/-- Two maps with the same entries are equal. -/
theorem ext_entries (h : ∀ x, x ∈ m.entries ↔ x ∈ n.entries) : m = n := by
  have hnodup : ∀ m : SortedMap α β, m.entries.Nodup := fun m => List.Nodup.of_map _ m.keys.nodup_toList
  have hentries : m.entries = n.entries := by
    refine ((List.perm_ext_iff_of_nodup (hnodup m) (hnodup n)).2 h).eq_of_pairwise (fun a b _ _ hab hba => ?_)
      m.sorted n.sorted
    rw [Std.OrientedCmp.gt_of_lt hab] at hba
    cases hba
  cases m
  cases n
  cases hentries
  rfl

/-- Two maps have the same value for a key of both. -/
def Agrees (m n : SortedMap α β) : Prop := ∀ k v w, (k, v) ∈ m.entries → (k, w) ∈ n.entries → v = w

theorem mem_entries_union_iff [Std.LawfulEqOrd α] (h : m.Agrees n) {x : α × β} :
    x ∈ (m ∪ n).entries ↔ x ∈ m.entries ∨ x ∈ n.entries := by
  refine ⟨mem_entries_union, fun hx => ?_⟩
  have hkey : x.1 ∈ (m ∪ n).keys := mem_keys_insertAll.2 (hx.imp List.mem_map_of_mem List.mem_map_of_mem)
  obtain ⟨⟨k, v⟩, hy, rfl⟩ := List.mem_map.1 hkey
  obtain ⟨k, w⟩ := x
  suffices hvw : v = w from hvw ▸ hy
  rcases mem_entries_union hy with hy | hy <;> rcases hx with hx | hx
  · exact congrArg Prod.snd (eq_of_mem_entries hy hx rfl)
  · exact h k v w hy hx
  · exact (h k w v hx hy).symm
  · exact congrArg Prod.snd (eq_of_mem_entries hy hx rfl)

end SortedMap

theorem exists_mem_append {α : Type} {p : α → Prop} {l m : List α} :
    (∃ a ∈ l ++ m, p a) ↔ (∃ a ∈ l, p a) ∨ ∃ a ∈ m, p a := by
  simp only [List.mem_append, or_and_right, exists_or]

theorem mem_filter_append_filter_not {α : Type} {q : α → Bool} {l : List α} {a : α} :
    a ∈ l.filter q ++ l.filter (fun a => !q a) ↔ a ∈ l := by
  rw [List.mem_append, List.mem_filter, List.mem_filter, ← and_or_left, Bool.not_eq_true']
  exact and_iff_left (Bool.eq_false_or_eq_true _)

theorem exists_mem_singleton {α : Type} {p : α → Prop} {a : α} : (∃ b ∈ [a], p b) ↔ p a := by
  simp only [List.mem_singleton, exists_eq_left]

namespace LogicalProperties

variable {p q : LogicalProperties}

/-- Properties as a derivation leaves them. -/
def Settled (p : LogicalProperties) : Prop := ∃ raw : LogicalProperties, p = raw.completed

section

variable {c : ColumnId} {x : Scalar} {k : ColumnSet}

theorem settled_completed (p : LogicalProperties) : p.completed.Settled := ⟨p, rfl⟩

theorem mem_notNull_completed : c ∈ p.completed.notNull ↔ c ∈ p.notNull ∧ c ∈ p.output := SortedSet.mem_inter

theorem mem_outerRefs_completed : c ∈ p.completed.outerRefs ↔ c ∈ p.outerRefs ∧ c ∉ p.output := SortedSet.mem_diff

theorem mem_constraint_completed :
    x ∈ p.completed.constraint ↔ x ∈ p.constraint ∧ ∀ c ∈ x.columns, c ∈ p.output :=
  SortedSet.mem_filter.trans (and_congr_right fun _ => SortedSet.subset_iff)

/-- Without more than one row every set of columns contains a key. -/
theorem covers_completed (h : ∀ k ∈ p.keys, ∀ c ∈ k, c ∈ p.output) :
    p.completed.keys.Covers k ↔ p.maxCardinality.atMostOne = true ∨ p.keys.Covers k := by
  refine KeySet.covers_minimize.trans ?_
  split
  · rename_i hone
    exact ⟨fun _ => .inl hone, fun _ => KeySet.covers_empty_key k⟩
  · rename_i hmany
    have hall : p.keys.filter (fun k => k.subset p.output) = p.keys := SortedSet.ext_mem fun k =>
      SortedSet.mem_filter.trans (and_iff_left_of_imp fun hk => SortedSet.subset_iff.2 (h k hk))
    rw [hall]
    exact (or_iff_right hmany).symm

end

namespace Settled

theorem notNull_subset (h : p.Settled) {c : ColumnId} (hc : c ∈ p.notNull) : c ∈ p.output := by
  obtain ⟨raw, rfl⟩ := h
  exact (mem_notNull_completed.1 hc).2

theorem not_mem_output (h : p.Settled) {c : ColumnId} (hc : c ∈ p.outerRefs) : c ∉ p.output := by
  obtain ⟨raw, rfl⟩ := h
  exact (mem_outerRefs_completed.1 hc).2

theorem constraint_subset (h : p.Settled) {x : Scalar} (hx : x ∈ p.constraint) : ∀ c ∈ x.columns, c ∈ p.output := by
  obtain ⟨raw, rfl⟩ := h
  exact (mem_constraint_completed.1 hx).2

theorem keys_subset (h : p.Settled) {k : ColumnSet} (hk : k ∈ p.keys) : ∀ c ∈ k, c ∈ p.output := by
  obtain ⟨raw, rfl⟩ := h
  have hk := (KeySet.mem_minimize.1 hk).1
  split at hk
  · rw [List.mem_singleton.1 hk]
    exact fun c hc => absurd hc List.not_mem_nil
  · exact SortedSet.subset_iff.1 (SortedSet.mem_filter.1 hk).2

theorem minimize_keys (h : p.Settled) : KeySet.minimize p.keys = p.keys := by
  obtain ⟨raw, rfl⟩ := h
  exact KeySet.minimize_congr fun k => KeySet.covers_minimize

theorem covers_of_atMostOne (h : p.Settled) (hone : p.maxCardinality.atMostOne = true) (k : ColumnSet) :
    p.keys.Covers k := by
  obtain ⟨raw, rfl⟩ := h
  change raw.maxCardinality.atMostOne = true at hone
  refine KeySet.covers_minimize.2 ?_
  rw [if_pos hone]
  exact KeySet.covers_empty_key k

/-- Settled properties are told apart without looking at the equivalence classes, which the constraint gives. -/
theorem ext (hp : p.Settled) (hq : q.Settled) (houtput : ∀ c, c ∈ p.output ↔ c ∈ q.output)
    (hnotNull : ∀ c, c ∈ p.notNull ↔ c ∈ q.notNull) (hkeys : ∀ k, p.keys.Covers k ↔ q.keys.Covers k)
    (hcard : p.maxCardinality = q.maxCardinality) (houter : ∀ c, c ∈ p.outerRefs ↔ c ∈ q.outerRefs)
    (hconstraint : ∀ x, x ∈ p.constraint ↔ x ∈ q.constraint)
    (hrelations : ∀ r, r ∈ p.relations ↔ r ∈ q.relations)
    (hconsumers : ∀ x, x ∈ p.partitionConsumers.entries ↔ x ∈ q.partitionConsumers.entries) : p = q := by
  have hkeys : p.keys = q.keys := by
    rw [← hp.minimize_keys, ← hq.minimize_keys]
    exact KeySet.minimize_congr hkeys
  have hequivalences : ∀ {p : LogicalProperties}, p.Settled →
      p.equivalences = .ofPairs (p.constraint.toList.filterMap Scalar.columnEquality?) := by
    rintro _ ⟨raw, rfl⟩
    rfl
  have hclasses : p.equivalences = q.equivalences := by
    rw [hequivalences hp, hequivalences hq, SortedSet.ext_mem hconstraint]
  cases p
  cases q
  obtain rfl := SortedSet.ext_mem houtput
  obtain rfl := SortedSet.ext_mem hnotNull
  obtain rfl := SortedSet.ext_mem houter
  obtain rfl := SortedSet.ext_mem hconstraint
  obtain rfl := SortedSet.ext_mem hrelations
  obtain rfl := SortedMap.ext_entries hconsumers
  cases hkeys
  cases hcard
  cases hclasses
  rfl

end Settled

/-- What is derived for an inner join of inputs by conjuncts, however the join is nested. -/
structure JoinOf (p : LogicalProperties) (inputs : List LogicalProperties) (conjuncts : List Scalar) : Prop where
  settled : p.Settled
  output : ∀ c, c ∈ p.output ↔ ∃ i ∈ inputs, c ∈ i.output
  notNull : ∀ c, c ∈ p.notNull ↔
    ((∃ i ∈ inputs, c ∈ i.notNull) ∨ ∃ e ∈ conjuncts, c ∈ e.nullRejectingColumns) ∧ c ∈ p.output
  keys : ∀ k, p.keys.Covers k ↔ p.maxCardinality.atMostOne = true ∨ ∀ i ∈ inputs, i.keys.Covers k
  maxCardinality : (p.maxCardinality : WithOne MaxCardinality) =
    (inputs.map (fun i => (i.maxCardinality : WithOne MaxCardinality))).prod
  outerRefs : ∀ c, c ∈ p.outerRefs ↔
    ((∃ i ∈ inputs, c ∈ i.outerRefs) ∨ ∃ e ∈ conjuncts, c ∈ e.columns) ∧ c ∉ p.output
  constraint : ∀ x, x ∈ p.constraint ↔
    ((∃ i ∈ inputs, x ∈ i.constraint) ∨ ∃ e ∈ conjuncts, x = e.normalize) ∧ ∀ c ∈ x.columns, c ∈ p.output
  relations : ∀ r, r ∈ p.relations ↔ ∃ i ∈ inputs, r ∈ i.relations
  partitionConsumers : ∀ x, x ∈ p.partitionConsumers.entries ↔ ∃ i ∈ inputs, x ∈ i.partitionConsumers.entries

namespace JoinOf

variable {is js : List LogicalProperties} {es fs : List Scalar}

/-- The order of the inputs and of the conjuncts does not matter. -/
theorem congr (hp : JoinOf p is es) (hinputs : is.Perm js) (hconjuncts : ∀ e, e ∈ es ↔ e ∈ fs) : JoinOf p js fs where
  settled := hp.settled
  output c := by simp only [hp.output, hinputs.mem_iff]
  notNull c := by simp only [hp.notNull, hinputs.mem_iff, hconjuncts]
  keys k := by simp only [hp.keys, hinputs.mem_iff]
  maxCardinality := by rw [hp.maxCardinality, (hinputs.map _).prod_eq]
  outerRefs c := by simp only [hp.outerRefs, hinputs.mem_iff, hconjuncts]
  constraint x := by simp only [hp.constraint, hinputs.mem_iff, hconjuncts]
  relations r := by simp only [hp.relations, hinputs.mem_iff]
  partitionConsumers x := by simp only [hp.partitionConsumers, hinputs.mem_iff]

/-- The inputs and conjuncts determine everything that is derived. -/
theorem unique (hp : JoinOf p is es) (hq : JoinOf q is es) : p = q := by
  have hcard : p.maxCardinality = q.maxCardinality :=
    WithOne.coe_inj.1 (hp.maxCardinality.trans hq.maxCardinality.symm)
  have houtput : ∀ c, c ∈ p.output ↔ c ∈ q.output := fun c => (hp.output c).trans (hq.output c).symm
  refine hp.settled.ext hq.settled houtput (fun c => ?_) (fun k => ?_) hcard (fun c => ?_) (fun x => ?_)
    (fun r => (hp.relations r).trans (hq.relations r).symm)
    fun x => (hp.partitionConsumers x).trans (hq.partitionConsumers x).symm
  · rw [hp.notNull, hq.notNull, houtput]
  · rw [hp.keys, hq.keys, hcard]
  · rw [hp.outerRefs, hq.outerRefs, houtput]
  · simp only [hp.constraint, hq.constraint, houtput]

theorem refl (h : p.Settled) : JoinOf p [p] [] where
  settled := h
  output c := by simp
  notNull c := by simpa using h.notNull_subset
  keys k := by simpa using fun hone => h.covers_of_atMostOne hone k
  maxCardinality := by simp
  outerRefs c := by simpa using h.not_mem_output
  constraint x := by simpa using h.constraint_subset
  relations r := by simp
  partitionConsumers x := by simp

/-- A bound of one row comes from bounds of one row, or from an input without rows. -/
theorem atMostOne_of_maxCardinality (h : JoinOf p is es) (hone : p.maxCardinality.atMostOne = true) :
    p.maxCardinality = .bounded 0 ∨ ∀ i ∈ is, i.maxCardinality.atMostOne = true :=
  MaxCardinality.atMostOne_of_prod h.maxCardinality hone

/-- What a restriction below leaves out, a restriction above would leave out as well. -/
theorem flatten_iff {A E J F P Q : Prop} (hA : A → P → Q) (hE : E → P → Q) :
    (((A ∨ E) ∧ Q ∨ J) ∨ F) ∧ P ↔ ((A ∨ J) ∨ (E ∨ F)) ∧ P := by
  tauto

/-- A join below another one is flattened if its conjuncts mention no columns of the other inputs. -/
theorem nest (hp : JoinOf p (q :: js) fs) (hq : JoinOf q is es) (hsettled : ∀ i ∈ is, i.Settled)
    (hplaced : ∀ e ∈ es, ∀ c ∈ e.columns, c ∈ p.output → c ∈ q.output) : JoinOf p (is ++ js) (es ++ fs) where
  settled := hp.settled
  output c := by
    rw [hp.output, List.exists_mem_cons_iff, hq.output, exists_mem_append]
  notNull c := by
    rw [hp.notNull, List.exists_mem_cons_iff, hq.notNull, exists_mem_append, exists_mem_append]
    refine flatten_iff (fun ⟨i, hi, hc⟩ _ => ?_) fun ⟨e, he, hc⟩ => ?_
    · exact (hq.output c).2 ⟨i, hi, (hsettled i hi).notNull_subset hc⟩
    · exact hplaced e he c (Scalar.nullRejectingColumns_subset hc)
  keys k := by
    rw [hp.keys, List.forall_mem_cons, hq.keys, List.forall_mem_append]
    constructor
    · rintro (hone | ⟨hone | his, hjs⟩)
      · exact .inl hone
      · rcases hq.atMostOne_of_maxCardinality hone with hzero | his
        · have hempty : p.maxCardinality = .bounded 0 :=
            MaxCardinality.eq_zero_of_prod hp.maxCardinality ⟨q, List.mem_cons_self .., hzero⟩
          exact .inl (hempty ▸ rfl)
        · exact .inr ⟨fun i hi => (hsettled i hi).covers_of_atMostOne (his i hi) k, hjs⟩
      · exact .inr ⟨his, hjs⟩
    · exact Or.imp_right fun ⟨his, hjs⟩ => ⟨.inr his, hjs⟩
  maxCardinality := by
    rw [hp.maxCardinality, List.map_cons, List.prod_cons, hq.maxCardinality, List.map_append, List.prod_append]
  outerRefs c := by
    have hbelow : c ∉ p.output → c ∉ q.output := fun hc hcq => hc ((hp.output c).2 ⟨q, List.mem_cons_self .., hcq⟩)
    rw [hp.outerRefs, List.exists_mem_cons_iff, hq.outerRefs, exists_mem_append, exists_mem_append]
    exact flatten_iff (fun _ => hbelow) fun _ => hbelow
  constraint x := by
    rw [hp.constraint, List.exists_mem_cons_iff, hq.constraint, exists_mem_append, exists_mem_append]
    refine flatten_iff (fun ⟨i, hi, hx⟩ _ c hc => ?_) fun ⟨e, he, hx⟩ hcolumns c hc => ?_
    · exact (hq.output c).2 ⟨i, hi, (hsettled i hi).constraint_subset hx c hc⟩
    · exact hplaced e he c (Scalar.mem_columns_normalize.1 (hx ▸ hc)) (hcolumns c hc)
  relations r := by
    rw [hp.relations, List.exists_mem_cons_iff, hq.relations, exists_mem_append]
  partitionConsumers x := by
    rw [hp.partitionConsumers, List.exists_mem_cons_iff, hq.partitionConsumers, exists_mem_append]

theorem trans {o : LogicalProperties} (hp : JoinOf p [q] fs) (hq : JoinOf q [o] es) (ho : o.Settled) :
    JoinOf p [o] (es ++ fs) :=
  hp.nest hq (List.forall_mem_singleton.2 ho) fun _ _ c _ hc => by simpa [hp.output] using hc

end JoinOf

/-- The same table scan reads the same partitioned column in all inputs. -/
def ScansAgree (inputs : List LogicalProperties) : Prop :=
  ∀ i ∈ inputs, ∀ j ∈ inputs, i.partitionConsumers.Agrees j.partitionConsumers

theorem ScansAgree.mono {is js : List LogicalProperties} (h : ScansAgree js) (hsub : ∀ i ∈ is, i ∈ js) :
    ScansAgree is := fun i hi j hj => h i (hsub i hi) j (hsub j hj)

/-- The scans of a join are those of its inputs. -/
theorem JoinOf.scansAgree {is js : List LogicalProperties} {es : List Scalar} (hp : JoinOf p is es)
    (h : ScansAgree (is ++ js)) : ScansAgree (p :: js) := by
  have hmem : ∀ i ∈ p :: js, ∀ x ∈ i.partitionConsumers.entries, ∃ j ∈ is ++ js, x ∈ j.partitionConsumers.entries := by
    intro i hi x hx
    rcases List.mem_cons.1 hi with rfl | hi
    · obtain ⟨j, hj, hx⟩ := (hp.partitionConsumers x).1 hx
      exact ⟨j, List.mem_append_left _ hj, hx⟩
    · exact ⟨i, List.mem_append_right _ hi, hx⟩
  intro i hi j hj k v w hv hw
  obtain ⟨i', hi', hv⟩ := hmem i hi _ hv
  obtain ⟨j', hj', hw⟩ := hmem j hj _ hw
  exact h i' hi' j' hj' k v w hv hw

/-- What is derived for the rows of all inputs together before it is completed. -/
structure ProductOf (p : LogicalProperties) (inputs : List LogicalProperties) : Prop where
  output : ∀ c, c ∈ p.output ↔ ∃ i ∈ inputs, c ∈ i.output
  notNull : ∀ c, c ∈ p.notNull ↔ ∃ i ∈ inputs, c ∈ i.notNull
  keys : ∀ k, p.keys.Covers k ↔ ∀ i ∈ inputs, i.keys.Covers k
  keys_subset : ∀ k ∈ p.keys, ∀ c ∈ k, c ∈ p.output
  maxCardinality : (p.maxCardinality : WithOne MaxCardinality) =
    (inputs.map (fun i => (i.maxCardinality : WithOne MaxCardinality))).prod
  outerRefs : ∀ c, c ∉ p.output → (c ∈ p.outerRefs ↔ ∃ i ∈ inputs, c ∈ i.outerRefs)
  constraint : ∀ x, x ∈ p.constraint ↔ ∃ i ∈ inputs, x ∈ i.constraint
  relations : ∀ r, r ∈ p.relations ↔ ∃ i ∈ inputs, r ∈ i.relations
  partitionConsumers : ∀ x, x ∈ p.partitionConsumers.entries ↔ ∃ i ∈ inputs, x ∈ i.partitionConsumers.entries

namespace ProductOf

variable {is js : List LogicalProperties}

theorem single (h : p.Settled) : ProductOf p [p] where
  output c := by simp
  notNull c := by simp
  keys k := by simp
  keys_subset _ hk := h.keys_subset hk
  maxCardinality := by simp
  outerRefs c _ := by simp
  constraint x := by simp
  relations r := by simp
  partitionConsumers x := by simp

theorem join (hp : ProductOf p is) (hq : q.Settled) (hscans : ScansAgree (is ++ [q])) :
    ProductOf (ofJoin .inner .true p q) (is ++ [q]) where
  output c := by
    rw [exists_mem_append, ← hp.output]
    exact SortedSet.mem_union.trans (or_congr_right (by simp))
  notNull c := by
    rw [exists_mem_append, ← hp.notNull]
    change c ∈ p.notNull ∪ q.notNull ↔ _
    exact SortedSet.mem_union.trans (or_congr_right (by simp))
  keys k := by
    rw [List.forall_mem_append, List.forall_mem_singleton, ← hp.keys]
    exact KeySet.covers_combine
  keys_subset k hk c hc := by
    obtain ⟨l, hl, r, hr, rfl⟩ := KeySet.mem_combine.1 hk
    exact SortedSet.mem_union.2 ((SortedSet.mem_union.1 hc).imp (hp.keys_subset l hl c) (hq.keys_subset hr c))
  maxCardinality := by
    rw [List.map_append, List.prod_append, ← hp.maxCardinality]
    simp only [List.map_cons, List.map_nil, List.prod_singleton]
    rfl
  outerRefs c hc := by
    have hnot : c ∉ p.output ∪ q.output := hc
    have hcp : c ∉ p.output := fun h => hnot (SortedSet.mem_union.2 (.inl h))
    rw [exists_mem_append, ← hp.outerRefs c hcp]
    change c ∈ (p.outerRefs ∪ q.outerRefs) \ (p.output ∪ q.output) ↔ _
    rw [SortedSet.mem_diff, and_iff_left hnot]
    exact SortedSet.mem_union.trans (or_congr_right (by simp))
  constraint x := by
    rw [exists_mem_append, ← hp.constraint]
    change x ∈ p.constraint ∪ q.constraint ↔ _
    exact SortedSet.mem_union.trans (or_congr_right (by simp))
  relations r := by
    rw [exists_mem_append, ← hp.relations]
    exact SortedSet.mem_union.trans (or_congr_right (by simp))
  partitionConsumers x := by
    have hagrees : p.partitionConsumers.Agrees q.partitionConsumers := by
      intro k v w hv hw
      obtain ⟨i, hi, hv⟩ := (hp.partitionConsumers _).1 hv
      exact hscans i (List.mem_append_left _ hi) q (List.mem_append_right _ (List.mem_singleton.2 rfl)) k v w hv hw
    rw [exists_mem_append, ← hp.partitionConsumers]
    exact (SortedMap.mem_entries_union_iff hagrees).trans (or_congr_right (by simp))

theorem foldl (hp : ProductOf p is) (hjs : ∀ j ∈ js, j.Settled) (hscans : ScansAgree (is ++ js)) :
    ProductOf (js.foldl (ofJoin .inner .true) p) (is ++ js) := by
  induction js generalizing p is with
  | nil => rwa [List.append_nil]
  | cons j js ih =>
    rw [List.append_cons] at hscans ⊢
    have hjoin := hp.join (hjs j (List.mem_cons_self ..)) fun x hx y hy =>
      hscans x (List.mem_append_left _ hx) y (List.mem_append_left _ hy)
    exact ih hjoin (fun x hx => hjs x (List.mem_cons_of_mem _ hx)) hscans

/-- The conjuncts of a filter above a product. -/
theorem restrict (hp : ProductOf p is) (on : Scalar) : JoinOf (p.restrict on).completed is on.conjuncts where
  settled := settled_completed _
  output := hp.output
  notNull c := by
    refine mem_notNull_completed.trans (and_congr_left fun _ => SortedSet.mem_union.trans ?_)
    rw [hp.notNull, Scalar.mem_nullRejectingColumns]
  keys k := by
    refine (covers_completed (p := p.restrict on) hp.keys_subset).trans (or_congr_right (hp.keys k))
  maxCardinality := hp.maxCardinality
  outerRefs c := by
    refine mem_outerRefs_completed.trans (and_congr_left fun hc => SortedSet.mem_union.trans ?_)
    rw [hp.outerRefs c hc, SortedSet.mem_diff, Scalar.mem_columns]
    exact or_congr_right (and_iff_left hc)
  constraint x := by
    refine mem_constraint_completed.trans (and_congr_left fun _ => SortedSet.mem_union.trans ?_)
    rw [hp.constraint, Scalar.mem_normalConjuncts]
  relations := hp.relations
  partitionConsumers := hp.partitionConsumers

end ProductOf

theorem joinOf_restrict (h : p.Settled) (filter : Scalar) : JoinOf (p.restrict filter).completed [p] filter.conjuncts :=
  (ProductOf.single h).restrict filter

theorem joinOf_ofJoin_inner (hsettled : ∀ i ∈ [p, q], i.Settled) (hscans : ScansAgree [p, q]) (on : Scalar) :
    JoinOf (ofJoin .inner on p q).completed [p, q] on.conjuncts := by
  have hp : ProductOf p [p] := .single (hsettled p (List.mem_cons_self ..))
  have h := (hp.join (hsettled q (List.mem_cons_of_mem _ (List.mem_singleton.2 rfl))) hscans).restrict on
  suffices heq : (ofJoin .inner on p q).completed = ((ofJoin .inner .true p q).restrict on).completed from heq ▸ h
  refine (settled_completed _).ext (settled_completed _) (fun _ => Iff.rfl) (fun _ => Iff.rfl) (fun _ => Iff.rfl) rfl
    (fun c => ?_) (fun _ => Iff.rfl) (fun _ => Iff.rfl) fun _ => Iff.rfl
  rw [mem_outerRefs_completed, mem_outerRefs_completed]
  change c ∈ (p.outerRefs ∪ q.outerRefs ∪ on.columns) \ (p.output ∪ q.output) ∧ c ∉ p.output ∪ q.output ↔
    c ∈ (p.outerRefs ∪ q.outerRefs) \ (p.output ∪ q.output) ∪ (on.columns \ (p.output ∪ q.output)) ∧
      c ∉ p.output ∪ q.output
  simp only [SortedSet.mem_diff, SortedSet.mem_union]
  tauto

theorem joinOf_ofNaryJoin {ps : List LogicalProperties} (on : Scalar) (hsettled : ∀ i ∈ p :: ps, i.Settled)
    (hscans : ScansAgree (p :: ps)) : JoinOf (ofNaryJoin on p ps).completed (p :: ps) on.conjuncts := by
  have hfirst := ProductOf.single (hsettled p (List.mem_cons_self ..))
  exact (hfirst.foldl (fun i hi => hsettled i (List.mem_cons_of_mem _ hi)) hscans).restrict on

end LogicalProperties
end Cascade
