import Mathlib.Algebra.Order.BigOperators.Group.Multiset
import Mathlib.Algebra.Order.Group.Nat
import Cascade.Proofs.Properties.Bounds
import Cascade.Proofs.Semantics.Relation

/-!
Keys and sizes of bags of rows. A key of the rows that something is done for, together with a key of what is done for
each of them, is a key of all results; the bounds of their numbers multiply.
-/

namespace Cascade

/-- The values of the columns of a row; another column reads as `NULL`. -/
def Row.values (r : Row) : Binding := fun c => (r c).getD .null

/-- No two rows agree in all of some columns, where `NULL` agrees with `NULL`. -/
structure DistinctOn (k : ColumnSet) (rows : Multiset Row) : Prop where
  nodup : rows.Nodup
  eq_of_agree : ∀ r ∈ rows, ∀ r' ∈ rows, (∀ c ∈ k, r c = r' c) → r = r'

namespace DistinctOn

variable {k k' : ColumnSet} {rows rows' : Multiset Row}

theorem of_le (h : DistinctOn k rows) (hle : rows' ≤ rows) : DistinctOn k rows' where
  nodup := Multiset.nodup_of_le hle h.nodup
  eq_of_agree r hr r' hr' := h.eq_of_agree r (Multiset.mem_of_le hle hr) r' (Multiset.mem_of_le hle hr')

theorem of_card_le_one (h : rows.card ≤ 1) (k : ColumnSet) : DistinctOn k rows := by
  rcases Nat.le_one_iff_eq_zero_or_eq_one.1 h with h | h
  · rw [Multiset.card_eq_zero.1 h]
    exact ⟨Multiset.nodup_zero, fun r hr => absurd hr (Multiset.notMem_zero r)⟩
  · obtain ⟨r, rfl⟩ := Multiset.card_eq_one.1 h
    refine ⟨Multiset.nodup_singleton r, fun t ht t' ht' _ => ?_⟩
    rw [Multiset.mem_singleton.1 ht, Multiset.mem_singleton.1 ht']

/-- Rows made one by one from other things. -/
theorem of_map {α : Type} {M : Multiset α} {f : α → Row} (hM : M.Nodup)
    (h : ∀ a ∈ M, ∀ a' ∈ M, (∀ c ∈ k, f a c = f a' c) → a = a') : DistinctOn k (M.map f) where
  nodup := hM.map_on fun a ha a' ha' heq => h a ha a' ha' fun _ _ => by rw [heq]
  eq_of_agree r hr r' hr' hagree := by
    obtain ⟨a, ha, rfl⟩ := Multiset.mem_map.1 hr
    obtain ⟨a', ha', rfl⟩ := Multiset.mem_map.1 hr'
    rw [h a ha a' ha' hagree]

theorem map {f : Row → Row} (h : DistinctOn k rows)
    (hf : ∀ r ∈ rows, ∀ r' ∈ rows, (∀ c ∈ k', f r c = f r' c) → ∀ c ∈ k, r c = r' c) : DistinctOn k' (rows.map f) :=
  of_map h.nodup fun r hr r' hr' hagree => h.eq_of_agree r hr r' hr' (hf r hr r' hr' hagree)

theorem bind {f : Row → Multiset Row} (h : DistinctOn k rows) (hf : ∀ r ∈ rows, DistinctOn k' (f r))
    (hkeep : ∀ r ∈ rows, ∀ t ∈ f r, ∀ c ∈ k, t c = r c) : DistinctOn (k ∪ k') (rows.bind f) := by
  have hfrom : ∀ r ∈ rows, ∀ t ∈ f r, ∀ r' ∈ rows, ∀ t' ∈ f r', (∀ c ∈ k, t c = t' c) → r = r' := by
    intro r hr t ht r' hr' t' ht' hagree
    refine h.eq_of_agree r hr r' hr' fun c hc => ?_
    rw [← hkeep r hr t ht c hc, hagree c hc, hkeep r' hr' t' ht' c hc]
  refine ⟨Multiset.nodup_bind.2 ⟨fun r hr => (hf r hr).nodup, h.nodup.pairwise fun r hr r' hr' hne => ?_⟩, ?_⟩
  · exact Multiset.disjoint_left.2 fun {t} ht ht' => hne (hfrom r hr t ht r' hr' t ht' fun _ _ => rfl)
  · intro t ht t' ht' hagree
    obtain ⟨r, hr, ht⟩ := Multiset.mem_bind.1 ht
    obtain ⟨r', hr', ht'⟩ := Multiset.mem_bind.1 ht'
    obtain rfl := hfrom r hr t ht r' hr' t' ht' fun c hc => hagree c (SortedSet.mem_union.2 (.inl hc))
    exact (hf r hr).eq_of_agree t ht t' ht' fun c hc => hagree c (SortedSet.mem_union.2 (.inr hc))

end DistinctOn

namespace MaxCardinality

/-- A number of rows is within a bound. -/
def Bounds : MaxCardinality → Nat → Prop
  | bounded n, m => m ≤ n
  | unbounded, _ => True

variable {l r : MaxCardinality} {m n : Nat}

theorem Bounds.mono (h : l.Bounds n) (hle : m ≤ n) : l.Bounds m := by
  cases l with
  | bounded _ => exact hle.trans h
  | unbounded => trivial

theorem bounds_ofCount (h : m ≤ n) : (ofCount n).Bounds m := by
  unfold ofCount
  split
  · exact h
  · trivial

theorem Bounds.le_one (h : l.Bounds m) (hone : l.atMostOne = true) : m ≤ 1 := by
  cases l with
  | bounded n => exact Nat.le_trans h (of_decide_eq_true hone)
  | unbounded => cases hone

theorem Bounds.add (hl : l.Bounds m) (hr : r.Bounds n) : (l.add r).Bounds (m + n) := by
  cases l with
  | bounded _ =>
    cases r with
    | bounded _ => exact bounds_ofCount (Nat.add_le_add hl hr)
    | unbounded => trivial
  | unbounded => trivial

theorem Bounds.min (hl : l.Bounds m) (hr : r.Bounds m) : (l.min r).Bounds m := by
  cases l with
  | bounded _ =>
    cases r with
    | bounded _ => exact Nat.le_min.2 ⟨hl, hr⟩
    | unbounded => exact hl
  | unbounded =>
    cases r with
    | bounded _ => exact hr
    | unbounded => trivial

theorem Bounds.atLeastOne (h : l.Bounds m) : l.atLeastOne.Bounds (max 1 m) := by
  cases l with
  | bounded n =>
    have hle : m ≤ n := h
    cases n with
    | zero => exact Nat.max_le.2 ⟨le_refl 1, hle.trans (Nat.zero_le 1)⟩
    | succ n => exact Nat.max_le.2 ⟨Nat.succ_pos n, hle⟩
  | unbounded => trivial

theorem Bounds.bind {α β : Type} {M : Multiset α} {f : α → Multiset β} (hl : l.Bounds M.card)
    (hr : ∀ a ∈ M, r.Bounds (f a).card) : (l.multiply r).Bounds (M.bind f).card := by
  by_cases hnone : M = 0
  · rw [hnone, Multiset.zero_bind, Multiset.card_zero]
    cases l.multiply r with
    | bounded n => exact Nat.zero_le n
    | unbounded => trivial
  have hl0 : l ≠ bounded 0 := by
    rintro rfl
    exact hnone (Multiset.card_eq_zero.1 (Nat.le_zero.1 hl))
  cases r with
  | unbounded =>
    rw [multiply_unbounded hl0]
    trivial
  | bounded n =>
    have hle : (M.bind f).card ≤ M.card * n := by
      rw [Multiset.card_bind, ← Multiset.card_map (Multiset.card ∘ f), ← Nat.nsmul_eq_mul]
      refine Multiset.sum_le_card_nsmul _ _ fun m hm => ?_
      obtain ⟨a, ha, rfl⟩ := Multiset.mem_map.1 hm
      exact hr a ha
    by_cases hn : n = 0
    · rw [hn, multiply_zero]
      exact hle.trans (by rw [hn, Nat.mul_zero])
    cases l with
    | bounded k =>
      rw [multiply_bounded k n (fun h => hl0 (congrArg _ h)) hn]
      exact bounds_ofCount (hle.trans (Nat.mul_le_mul_right n hl))
    | unbounded =>
      rw [multiply_comm, multiply_unbounded fun h => hn (bounded.inj h)]
      trivial

end MaxCardinality
end Cascade
