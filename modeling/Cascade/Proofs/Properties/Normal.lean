import Cascade.Proofs.Properties.Equalities
import Cascade.Proofs.Properties.Products
import Cascade.Proofs.Semantics.Columns
import Cascade.Proofs.Sequence

/-!
What all derived properties have: predicates in normal form and bounds that are 64-bit counts. Both hold of what is
derived for an operator if they hold of its inputs (`LogicalProperties.Derivable.proper`).
-/

namespace Cascade

namespace Scalar

variable {e x : Scalar}

theorem conjunction_singleton (e : Scalar) : conjunction [e] = e := by
  unfold conjunction
  by_cases h : e.isTrue = Bool.true
  · obtain rfl := eq_literal_of_isTrue h
    rfl
  · rw [List.filter_cons_of_pos (by simpa using h)]
    rfl

/-- A normal form joins the normal forms of the conjuncts in order. -/
theorem normalize_eq_conjunction (e : Scalar) : e.normalize = conjunction e.normalConjuncts.toList := by
  cases e with
  | binary lhs op rhs =>
    cases op with
    | and =>
      rw [normalize]
      refine congrArg (fun s : SortedSet Scalar => conjunction s.toList) (SortedSet.ext_mem fun x => ?_)
      rw [SortedSet.mem_ofList, List.mem_append, mem_conjuncts_normalize, mem_conjuncts_normalize, mem_normalConjuncts,
        conjuncts]
      simp only [List.mem_append, or_and_right, exists_or]
    | _ => exact (conjunction_singleton _).symm
  | literal v =>
    by_cases h : (literal v).isTrue = Bool.true
    · rw [eq_literal_of_isTrue h]
      rfl
    · unfold normalConjuncts conjuncts
      rw [if_neg h]
      exact (conjunction_singleton _).symm
  | _ => exact (conjunction_singleton _).symm

theorem normalize_normalize_of_conjuncts (h : ∀ x ∈ e.conjuncts, x.normalize.normalize = x.normalize) :
    e.normalize.normalize = e.normalize := by
  have hsame : e.normalize.normalConjuncts = e.normalConjuncts := SortedSet.ext_mem fun x => by
    rw [mem_normalConjuncts, mem_normalConjuncts]
    constructor
    · rintro ⟨y, hy, rfl⟩
      obtain ⟨z, hz, rfl⟩ := mem_conjuncts_normalize.1 hy
      exact ⟨z, hz, h z hz⟩
    · rintro ⟨z, hz, rfl⟩
      exact ⟨z.normalize, mem_conjuncts_normalize.2 ⟨z, hz, rfl⟩, (h z hz).symm⟩
  calc e.normalize.normalize = conjunction e.normalize.normalConjuncts.toList := normalize_eq_conjunction _
    _ = conjunction e.normalConjuncts.toList := by rw [hsame]
    _ = e.normalize := (normalize_eq_conjunction e).symm

theorem normalize_binary {op : BinaryOp} (hop : op ≠ .and) (lhs rhs : Scalar) :
    (binary lhs op rhs).normalize = orderOperands lhs.normalize op rhs.normalize := by
  cases op with
  | and => exact absurd rfl hop
  | _ => rfl

/-- Operands in order stay so. -/
theorem normalize_orderOperands {op : BinaryOp} (hop : op ≠ .and) {lhs rhs : Scalar} (hl : lhs.normalize = lhs)
    (hr : rhs.normalize = rhs) : (orderOperands lhs op rhs).normalize = orderOperands lhs op rhs := by
  unfold orderOperands
  split
  · rename_i hlt
    have hnot : lhs.compare rhs ≠ .lt := by
      rw [compare_swap, hlt]
      exact nofun
    rw [normalize_binary (mt (BinaryOp.commute_eq_and op).1 hop), hl, hr, orderOperands, if_neg hnot]
  · rename_i hnot
    rw [normalize_binary hop, hl, hr, orderOperands, if_neg hnot]

theorem eq_of_mem_conjuncts (hand : ∀ l r, e ≠ .binary l .and r) (hx : x ∈ e.conjuncts) : x = e := by
  unfold conjuncts at hx
  split at hx
  · exact absurd rfl (hand _ _)
  · split at hx
    · cases hx
    · exact List.mem_singleton.1 hx

mutual

/-- Normal forms stay as they are. -/
theorem normalize_of_mem_conjuncts : ∀ {e x : Scalar}, x ∈ e.conjuncts → x.normalize.normalize = x.normalize
  | .column _, _, h | .literal _, _, h => by
    rw [eq_of_mem_conjuncts (by nofun) h]
    rfl
  | .not arg, _, h => by
    have harg := normalize_normalize_of_conjuncts fun y (hy : y ∈ arg.conjuncts) => normalize_of_mem_conjuncts hy
    rw [eq_of_mem_conjuncts (by nofun) h, normalize, normalize, harg]
  | .isNull arg, _, h => by
    have harg := normalize_normalize_of_conjuncts fun y (hy : y ∈ arg.conjuncts) => normalize_of_mem_conjuncts hy
    rw [eq_of_mem_conjuncts (by nofun) h, normalize, normalize, harg]
  | .cast arg _, _, h => by
    have harg := normalize_normalize_of_conjuncts fun y (hy : y ∈ arg.conjuncts) => normalize_of_mem_conjuncts hy
    rw [eq_of_mem_conjuncts (by nofun) h, normalize, normalize, harg]
  | .call _ args, _, h => by
    rw [eq_of_mem_conjuncts (by nofun) h, normalize, normalize, normalizeArgs_normalizeArgs]
  | .binary lhs op rhs, x, h => by
    by_cases hop : op = .and
    · subst hop
      exact (List.mem_append.1 h).elim normalize_of_mem_conjuncts normalize_of_mem_conjuncts
    · have hand : ∀ l r, binary lhs op rhs ≠ .binary l .and r := fun l r heq => hop (by injection heq)
      have hl := normalize_normalize_of_conjuncts fun y (hy : y ∈ lhs.conjuncts) => normalize_of_mem_conjuncts hy
      have hr := normalize_normalize_of_conjuncts fun y (hy : y ∈ rhs.conjuncts) => normalize_of_mem_conjuncts hy
      rw [eq_of_mem_conjuncts hand h, normalize_binary hop, normalize_orderOperands hop hl hr]

theorem normalizeArgs_normalizeArgs : ∀ args : List Scalar, normalizeArgs (normalizeArgs args) = normalizeArgs args
  | [] => rfl
  | arg :: args => by
    rw [normalizeArgs, normalizeArgs, normalizeArgs_normalizeArgs args,
      normalize_normalize_of_conjuncts fun y (hy : y ∈ arg.conjuncts) => normalize_of_mem_conjuncts hy]

end

theorem normalize_normalize (e : Scalar) : e.normalize.normalize = e.normalize :=
  normalize_normalize_of_conjuncts fun _ => normalize_of_mem_conjuncts

mutual

theorem mapColumns_id : ∀ e : Scalar, e.mapColumns (fun c => c) = e
  | .column _ | .literal _ => rfl
  | .not arg => congrArg _ (mapColumns_id arg)
  | .isNull arg => congrArg _ (mapColumns_id arg)
  | .cast arg type => congrArg (Scalar.cast · type) (mapColumns_id arg)
  | .call _ args => congrArg _ (mapArgColumns_id args)
  | .binary lhs op rhs => congrArg₂ (Scalar.binary · op ·) (mapColumns_id lhs) (mapColumns_id rhs)

theorem mapArgColumns_id : ∀ args : List Scalar, mapArgColumns (fun c => c) args = args
  | [] => rfl
  | arg :: args => congrArg₂ List.cons (mapColumns_id arg) (mapArgColumns_id args)

end

theorem normalize_of_mem_normalConjuncts (hx : x ∈ e.normalConjuncts) : x.normalize = x := by
  obtain ⟨y, -, rfl⟩ := mem_normalConjuncts.1 hx
  exact normalize_normalize y

end Scalar

namespace MaxCardinality

/-- A bound is a 64-bit count. -/
def Fits (m : MaxCardinality) : Prop := ∀ n, m = .bounded n → n < countLimit

variable {l r : MaxCardinality} {n : Nat}

theorem fits_unbounded : unbounded.Fits := fun _ h => (nomatch h)

theorem fits_bounded (h : n < countLimit) : (bounded n).Fits := fun _ heq => bounded.inj heq ▸ h

theorem fits_ofCount (n : Nat) : (ofCount n).Fits := by
  unfold ofCount
  split
  · rename_i h
    exact fits_bounded h
  · exact fits_unbounded

theorem fits_multiply (l r : MaxCardinality) : (l.multiply r).Fits := by
  have hzero : (0 : Nat) < countLimit := by decide
  rcases l with (_ | l) | _ <;> rcases r with (_ | r) | _ <;>
    first | exact fits_bounded hzero | exact fits_ofCount _ | exact fits_unbounded

theorem fits_add (l r : MaxCardinality) : (l.add r).Fits := by
  rcases l with l | _ <;> rcases r with r | _ <;> first | exact fits_ofCount _ | exact fits_unbounded

theorem Fits.min (h : l.Fits) (hn : n < countLimit) : (l.min (bounded n)).Fits := by
  rcases l with m | _
  · exact fits_bounded (Nat.lt_of_le_of_lt (Nat.min_le_right m n) hn)
  · exact fits_bounded hn

/-- A bound that fits is not changed by one row more to each row. -/
theorem Fits.multiply_one (h : l.Fits) : l.multiply (bounded 1) = l := by
  rcases l with (_ | n) | _
  · rfl
  · change ofCount ((n + 1) * 1) = _
    rw [Nat.mul_one, ofCount, if_pos (h _ rfl)]
  · rfl

end MaxCardinality

namespace LogicalProperties

/-- Predicates are in normal form and the bound is a count. -/
structure Proper (p : LogicalProperties) : Prop where
  normal : ∀ x ∈ p.constraint, x.normalize = x
  fits : p.maxCardinality.Fits

variable {p q : LogicalProperties}

theorem normal_renameConstraint (constraint : SortedSet Scalar) (rename : ColumnId → Option ColumnId) :
    ∀ x ∈ renameConstraint constraint rename, x.normalize = x := by
  intro x hx
  obtain ⟨y, -, rfl⟩ := List.mem_map.1 (SortedSet.mem_ofList.1 hx)
  exact Scalar.normalize_normalize _

namespace Proper

theorem completed (h : p.Proper) : p.completed.Proper :=
  ⟨fun x hx => h.normal x (mem_constraint_completed.1 hx).1, h.fits⟩

theorem restrict (h : p.Proper) (filter : Scalar) : (p.restrict filter).Proper :=
  ⟨fun x hx => (SortedSet.mem_union.1 hx).elim (h.normal x) Scalar.normalize_of_mem_normalConjuncts, h.fits⟩

theorem ofProject (h : p.Proper) (assignments : List Assignment) : (ofProject assignments p).Proper :=
  ⟨normal_renameConstraint _ _, h.fits⟩

theorem ofJoin (hp : p.Proper) (hq : q.Proper) (type : JoinType) (on : Scalar) : (ofJoin type on p q).Proper := by
  have hboth : ∀ x ∈ p.constraint ∪ q.constraint, x.normalize = x := fun x hx =>
    (SortedSet.mem_union.1 hx).elim (hp.normal x) (hq.normal x)
  have hmatching : ∀ s : SortedSet Scalar, (∀ x ∈ s, x.normalize = x) → ∀ x ∈ s ∪ on.normalConjuncts, x.normalize = x :=
    fun s hs x hx => (SortedSet.mem_union.1 hx).elim (hs x) Scalar.normalize_of_mem_normalConjuncts
  cases type with
  | inner => exact ⟨hmatching _ hboth, MaxCardinality.fits_multiply _ _⟩
  | leftOuter => exact ⟨hp.normal, MaxCardinality.fits_multiply _ _⟩
  | rightOuter => exact ⟨hq.normal, MaxCardinality.fits_multiply _ _⟩
  | leftSemi => exact ⟨hmatching _ hp.normal, hp.fits⟩
  | leftAntiSemi | leftAntiSemiNotIn => exact ⟨hp.normal, hp.fits⟩

theorem ofNaryJoin (hp : p.Proper) {ps : List LogicalProperties} (hps : ∀ q ∈ ps, q.Proper) (on : Scalar) :
    (ofNaryJoin on p ps).Proper := by
  refine restrict ?_ on
  induction ps generalizing p with
  | nil => exact hp
  | cons q ps ih =>
    obtain ⟨hq, hps⟩ := List.forall_mem_cons.1 hps
    exact ih (hp.ofJoin hq .inner .true) hps

theorem ofAggregate (h : p.Proper) (a : Aggregation) : (ofAggregate a p).Proper := by
  refine ⟨h.normal, ?_⟩
  change (if _ then MaxCardinality.bounded 1 else p.maxCardinality).Fits
  split
  · exact MaxCardinality.fits_bounded (by decide)
  · exact h.fits

theorem ofLimit (h : p.Proper) (l : RowLimit) (hcount : ∀ n, l.count = some n → n < MaxCardinality.countLimit) :
    (ofLimit l p).Proper := by
  refine ⟨h.normal, ?_⟩
  unfold LogicalProperties.ofLimit
  dsimp only
  split
  · rename_i n hn
    exact h.fits.min (hcount n hn)
  · exact h.fits

theorem foldl_gathered (inputs : List LogicalProperties) (hp : p.Proper) :
    (inputs.foldl (fun acc i =>
      { acc with
        maxCardinality := acc.maxCardinality.add i.maxCardinality
        outerRefs := acc.outerRefs ∪ i.outerRefs
        relations := acc.relations ∪ i.relations
        partitionConsumers := acc.partitionConsumers ∪ i.partitionConsumers }) p).Proper := by
  induction inputs generalizing p with
  | nil => exact hp
  | cons i inputs ih => exact ih ⟨hp.normal, MaxCardinality.fits_add _ _⟩

theorem of_no_constraint (hconstraint : p.constraint = ∅) (h : p.maxCardinality.Fits) : p.Proper :=
  ⟨fun x hx => absurd (hconstraint ▸ hx) (SortedSet.not_mem_empty x), h⟩

theorem ofUnionAll {u : Concatenation} {ps : List LogicalProperties} (h : ofUnionAll u ps = .ok q) : q.Proper := by
  unfold LogicalProperties.ofUnionAll at h
  split at h
  · cases h
  · split at h <;> cases h
    have hgathered := foldl_gathered ps (of_no_constraint (p := .empty) rfl (MaxCardinality.fits_bounded (by decide)))
    exact ⟨hgathered.normal, hgathered.fits⟩

theorem ofValues {v : ConstantRows} (h : ofValues v = .ok q) : q.Proper := by
  unfold LogicalProperties.ofValues at h
  split at h <;> cases h
  exact of_no_constraint rfl (MaxCardinality.fits_ofCount _)

theorem ofCteConsumer {r : CteRead} (hp : p.Proper) (h : ofCteConsumer r p = .ok q) : q.Proper := by
  unfold LogicalProperties.ofCteConsumer at h
  split at h <;> cases h
  exact ⟨normal_renameConstraint _ _, hp.fits⟩

theorem ofGet {g : Get} {c : Catalog} {cs : Columns} (h : g.properties c cs = .ok q) : q.Proper := by
  obtain ⟨t, -, h⟩ := exists_of_bind_ok h
  obtain ⟨columns, -, h⟩ := exists_of_bind_ok h
  cases h
  exact of_no_constraint rfl MaxCardinality.fits_unbounded

end Proper

end LogicalProperties

/-- The number of rows an operator is limited to is a count. -/
def LogicalOp.CountFits (op : LogicalOp) : Prop :=
  ∀ l n, op = .limit l → l.count = some n → n < MaxCardinality.countLimit

namespace LogicalProperties

/-- Properties that are derived for an operator from such properties. -/
inductive Derivable : LogicalProperties → Prop
  | of_operator {c : Catalog} {cs : Columns} {op : LogicalOp} {inputs : List LogicalProperties}
      {producer : Option LogicalProperties} {p : LogicalProperties} (hinputs : ∀ i ∈ inputs, Derivable i)
      (hproducer : ∀ i ∈ producer, Derivable i) (hcount : op.CountFits)
      (h : op.properties c cs inputs producer = .ok p) : Derivable p

theorem proper_of_rawProperties {c : Catalog} {cs : Columns} {op : LogicalOp} {inputs : List LogicalProperties}
    {producer : Option LogicalProperties} {raw : LogicalProperties}
    (h : op.rawProperties c cs producer inputs = .ok raw) (hinputs : ∀ i ∈ inputs, i.Proper) (hproducer : ∀ i ∈ producer, i.Proper) (hcount : op.CountFits) : raw.Proper := by
  unfold LogicalOp.rawProperties at h
  split at h
  case h_1 => exact .ofGet h
  case h_2 filter p =>
    cases h
    exact (hinputs p (List.mem_singleton.2 rfl)).restrict filter
  case h_3 l p =>
    cases h
    exact (hinputs p (List.mem_singleton.2 rfl)).ofProject l
  case h_4 type on l r =>
    cases h
    have hr := hinputs r (List.mem_cons_of_mem _ (List.mem_singleton.2 rfl))
    exact (hinputs l (List.mem_cons_self ..)).ofJoin hr type on
  case h_5 on first others =>
    cases h
    exact (hinputs first (List.mem_cons_self ..)).ofNaryJoin (fun q hq => hinputs q (List.mem_cons_of_mem _ hq)) on
  case h_6 a p =>
    cases h
    exact (hinputs p (List.mem_singleton.2 rfl)).ofAggregate a
  case h_7 l p =>
    cases h
    exact (hinputs p (List.mem_singleton.2 rfl)).ofLimit l fun n => hcount l n rfl
  case h_8 => exact .ofUnionAll h
  case h_9 => exact .ofValues h
  case h_10 =>
    cases h
    exact .of_no_constraint rfl MaxCardinality.fits_unbounded
  case h_11 type on l r =>
    cases h
    have hr := hinputs r (List.mem_cons_of_mem _ (List.mem_singleton.2 rfl))
    exact (hinputs l (List.mem_cons_self ..)).ofJoin hr type.joinType on
  case h_12 anchored body =>
    cases h
    have hbody := hinputs body (List.mem_cons_of_mem _ (List.mem_singleton.2 rfl))
    exact ⟨hbody.normal, hbody.fits⟩
  case h_13 r =>
    split at h
    · exact .ofCteConsumer (hproducer _ rfl) h
    · cases h
  case h_14 => cases h

theorem Derivable.proper {p : LogicalProperties} (h : p.Derivable) : p.Proper := by
  induction h with
  | of_operator _ _ hcount h hinputs hproducer =>
    obtain ⟨raw, hraw, rfl⟩ := LogicalOp.exists_of_properties h
    exact (proper_of_rawProperties hraw hinputs hproducer hcount).completed

theorem Derivable.settled {p : LogicalProperties} (h : p.Derivable) : p.Settled := by
  obtain ⟨-, -, -, h⟩ := h
  obtain ⟨raw, -, rfl⟩ := LogicalOp.exists_of_properties h
  exact settled_completed raw

end LogicalProperties
end Cascade
