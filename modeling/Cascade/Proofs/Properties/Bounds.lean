import Mathlib.Algebra.BigOperators.Group.List.Basic
import Mathlib.Algebra.Group.WithOne.Defs
import Mathlib.Algebra.Group.WithOne.Basic
import Mathlib.Data.List.Perm.Subperm
import Mathlib.Order.Basic
import Cascade.Property.Logical

/-!
Keys and bounds of products. Minimal keys are known by the sets of columns that contain one, and those of a product
are the ones that contain a key of each side. Bounds multiply in any order.
-/

namespace Cascade

namespace SortedSet

variable {α : Type} [Ord α] [Std.TransOrd α]

theorem union_comm [Std.LawfulEqOrd α] (s t : SortedSet α) : s ∪ t = t ∪ s :=
  ext_mem fun _ => mem_union.trans (or_comm.trans mem_union.symm)

theorem nodup_toList (s : SortedSet α) : s.toList.Nodup :=
  s.sorted.imp fun {a b} h hab => by
    rw [hab, Std.ReflOrd.compare_self] at h
    cases h

theorem eq_of_subset_of_size_le {s t : SortedSet α} (h : ∀ a ∈ s, a ∈ t) (hsize : t.size ≤ s.size) : s = t :=
  ext_mem fun _ => ((List.subperm_of_subset s.nodup_toList h).perm_of_length_le hsize).mem_iff

theorem size_lt_of_subset {s t : SortedSet α} (h : ∀ a ∈ s, a ∈ t) (hne : s ≠ t) : s.size < t.size :=
  Nat.lt_of_not_le fun hsize => hne (eq_of_subset_of_size_le h hsize)

end SortedSet

namespace KeySet

variable {K L : KeySet} {k : ColumnSet}

/-- A set of columns contains a key. -/
def Covers (K : KeySet) (k : ColumnSet) : Prop := ∃ x ∈ K, ∀ c ∈ x, c ∈ k

theorem covers_of_mem (h : k ∈ K) : K.Covers k := ⟨k, h, fun _ hc => hc⟩

theorem covers_empty_key (k : ColumnSet) : Covers (.singleton ∅) k :=
  ⟨∅, List.mem_singleton.2 rfl, fun _ hc => absurd hc List.not_mem_nil⟩

theorem mem_minimize : k ∈ minimize K ↔ k ∈ K ∧ ∀ x ∈ K, (∀ c ∈ x, c ∈ k) → x = k := by
  refine SortedSet.mem_filter.trans (and_congr_right fun _ => ?_)
  rw [Bool.not_eq_true', ← Bool.not_eq_true, List.any_eq_true]
  refine ⟨fun h x hx hxk => ?_, fun h ⟨x, hx, hxk⟩ => ?_⟩
  · by_contra hne
    exact h ⟨x, hx, by simpa [hne] using SortedSet.subset_iff.2 hxk⟩
  · obtain ⟨hne, hxk⟩ := Bool.and_eq_true_iff.1 hxk
    exact absurd (h x hx (SortedSet.subset_iff.1 hxk)) (by simpa using hne)

/-- Every key contains a minimal one. -/
theorem exists_mem_minimize {x : ColumnSet} (hx : x ∈ K) : ∃ y ∈ minimize K, ∀ c ∈ y, c ∈ x := by
  induction hsize : x.size using Nat.strongRecOn generalizing x with
  | ind n ih =>
    by_cases hmin : ∀ y ∈ K, (∀ c ∈ y, c ∈ x) → y = x
    · exact ⟨x, mem_minimize.2 ⟨hx, hmin⟩, fun _ hc => hc⟩
    · push Not at hmin
      obtain ⟨y, hy, hyx, hne⟩ := hmin
      obtain ⟨z, hz, hzy⟩ := ih y.size (hsize ▸ SortedSet.size_lt_of_subset hyx hne) hy rfl
      exact ⟨z, hz, fun c hc => hyx c (hzy c hc)⟩

theorem covers_minimize : (minimize K).Covers k ↔ K.Covers k := by
  constructor
  · rintro ⟨x, hx, hxk⟩
    exact ⟨x, (mem_minimize.1 hx).1, hxk⟩
  · rintro ⟨x, hx, hxk⟩
    obtain ⟨y, hy, hyx⟩ := exists_mem_minimize hx
    exact ⟨y, hy, fun c hc => hxk c (hyx c hc)⟩

/-- The minimal keys are the minimal sets that contain a key. -/
theorem mem_minimize_iff_covers :
    k ∈ minimize K ↔ K.Covers k ∧ ∀ x, K.Covers x → (∀ c ∈ x, c ∈ k) → x = k := by
  rw [mem_minimize]
  constructor
  · rintro ⟨hk, hmin⟩
    refine ⟨covers_of_mem hk, fun x ⟨y, hy, hyx⟩ hxk => SortedSet.ext_mem fun c => ⟨hxk c, fun hc => ?_⟩⟩
    obtain rfl := hmin y hy fun c hc => hxk c (hyx c hc)
    exact hyx c hc
  · rintro ⟨⟨x, hx, hxk⟩, hmin⟩
    obtain rfl := hmin x (covers_of_mem hx) hxk
    exact ⟨hx, fun y hy => hmin y (covers_of_mem hy)⟩

theorem minimize_congr (h : ∀ k, K.Covers k ↔ L.Covers k) : minimize K = minimize L := by
  refine SortedSet.ext_mem fun k => ?_
  simp only [mem_minimize_iff_covers, h]

theorem covers_insert {s : ColumnSet} : Covers (K.insert s) k ↔ (∀ c ∈ s, c ∈ k) ∨ K.Covers k := by
  simp only [Covers, SortedSet.mem_insert, or_and_right, exists_or, exists_eq_left]

/-- The keys within some columns are contained in what is left of a set there. -/
theorem covers_filter_subset {s : ColumnSet} : Covers (K.filter (fun x => x.subset s)) k ↔ K.Covers (k ∩ s) := by
  refine exists_congr fun x => ?_
  rw [SortedSet.mem_filter, SortedSet.subset_iff, and_assoc, ← forall₂_and]
  simp only [SortedSet.mem_inter, and_comm]

theorem covers_combine : (combine K L).Covers k ↔ K.Covers k ∧ L.Covers k := by
  constructor
  · rintro ⟨x, hx, hxk⟩
    obtain ⟨l, hl, hx⟩ := List.mem_flatMap.1 (SortedSet.mem_ofList.1 hx)
    obtain ⟨r, hr, rfl⟩ := List.mem_map.1 hx
    exact ⟨⟨l, hl, fun c hc => hxk c (SortedSet.mem_union.2 (.inl hc))⟩,
      ⟨r, hr, fun c hc => hxk c (SortedSet.mem_union.2 (.inr hc))⟩⟩
  · rintro ⟨⟨l, hl, hlk⟩, ⟨r, hr, hrk⟩⟩
    refine ⟨l ∪ r, SortedSet.mem_ofList.2 (List.mem_flatMap.2 ⟨l, hl, List.mem_map.2 ⟨r, hr, rfl⟩⟩), fun c hc => ?_⟩
    exact (SortedSet.mem_union.1 hc).elim (hlk c) (hrk c)

theorem mem_combine : k ∈ combine K L ↔ ∃ l ∈ K, ∃ r ∈ L, k = l ∪ r := by
  refine SortedSet.mem_ofList.trans (List.mem_flatMap.trans (exists_congr fun l => and_congr_right fun _ => ?_))
  exact List.mem_map.trans (exists_congr fun r => and_congr_right fun _ => eq_comm)

theorem combine_comm (K L : KeySet) : combine K L = combine L K := by
  refine SortedSet.ext_mem fun k => mem_combine.trans (Iff.trans ?_ mem_combine.symm)
  constructor <;> rintro ⟨l, hl, r, hr, rfl⟩ <;> exact ⟨r, hr, l, hl, SortedSet.union_comm l r⟩

end KeySet

namespace MaxCardinality

theorem multiply_comm (l r : MaxCardinality) : l.multiply r = r.multiply l := by
  rcases l with (_ | l) | _ <;> rcases r with (_ | r) | _ <;> simp only [multiply, Nat.mul_comm]

theorem zero_multiply (r : MaxCardinality) : multiply (bounded 0) r = bounded 0 := rfl

theorem multiply_zero (l : MaxCardinality) : multiply l (bounded 0) = bounded 0 := by
  rw [multiply_comm, zero_multiply]

theorem multiply_unbounded {l : MaxCardinality} (h : l ≠ bounded 0) : multiply l unbounded = unbounded := by
  rcases l with (_ | l) | _
  · exact absurd rfl h
  all_goals rfl

theorem multiply_bounded (l r : Nat) (hl : l ≠ 0) (hr : r ≠ 0) :
    multiply (bounded l) (bounded r) = ofCount (l * r) := by
  cases l with
  | zero => exact absurd rfl hl
  | succ l =>
    cases r with
    | zero => exact absurd rfl hr
    | succ r => rfl

theorem ofCount_ne_zero {n : Nat} (h : n ≠ 0) : ofCount n ≠ bounded 0 := by
  unfold ofCount
  split
  · exact fun he => h (bounded.inj he)
  · exact nofun

/-- A product that is too large stays so, whatever it is multiplied with. -/
theorem ofCount_multiply {n r : Nat} (hn : n ≠ 0) (hr : r ≠ 0) :
    multiply (ofCount n) (bounded r) = ofCount (n * r) := by
  by_cases h : n < countLimit
  · rw [ofCount, if_pos h, multiply_bounded n r hn hr]
  · have hle : n ≤ n * r := Nat.le_mul_of_pos_right n (Nat.pos_of_ne_zero hr)
    rw [ofCount, if_neg h, multiply_comm, multiply_unbounded fun he => hr (bounded.inj he), ofCount, if_neg]
    exact fun hlt => h (Nat.lt_of_le_of_lt hle hlt)

theorem multiply_assoc (l r s : MaxCardinality) : (l.multiply r).multiply s = l.multiply (r.multiply s) := by
  by_cases hzero : l = bounded 0 ∨ r = bounded 0 ∨ s = bounded 0
  · rcases hzero with rfl | rfl | rfl <;> simp only [zero_multiply, multiply_zero]
  · obtain ⟨hl, hr, hs⟩ : l ≠ bounded 0 ∧ r ≠ bounded 0 ∧ s ≠ bounded 0 := by simpa only [not_or] using hzero
    have hproduct : ∀ {x y : MaxCardinality}, x ≠ bounded 0 → y ≠ bounded 0 → x.multiply y ≠ bounded 0 := by
      intro x y hx hy
      rcases x with x | _
      · rcases y with y | _
        · have hx : x ≠ 0 := fun h => hx (congrArg _ h)
          have hy : y ≠ 0 := fun h => hy (congrArg _ h)
          rw [multiply_bounded x y hx hy]
          exact ofCount_ne_zero (Nat.mul_ne_zero hx hy)
        · rw [multiply_unbounded hx]
          exact nofun
      · rw [multiply_comm, multiply_unbounded hy]
        exact nofun
    rcases l with l | _
    · rcases s with s | _
      · rcases r with r | _
        · have hl : l ≠ 0 := fun h => hl (congrArg _ h)
          have hr : r ≠ 0 := fun h => hr (congrArg _ h)
          have hs : s ≠ 0 := fun h => hs (congrArg _ h)
          rw [multiply_bounded l r hl hr, multiply_bounded r s hr hs, multiply_comm (bounded l),
            ofCount_multiply (Nat.mul_ne_zero hl hr) hs, ofCount_multiply (Nat.mul_ne_zero hr hs) hl]
          exact congrArg _ (by rw [Nat.mul_assoc, Nat.mul_comm])
        · rw [multiply_unbounded hl, multiply_comm unbounded, multiply_unbounded hs, multiply_unbounded hl]
      · rw [multiply_unbounded hr, multiply_unbounded hl, multiply_unbounded (hproduct hl hr)]
    · rw [multiply_comm, multiply_comm unbounded, multiply_unbounded hr, multiply_unbounded hs,
        multiply_comm unbounded, multiply_unbounded (hproduct hr hs)]

instance : CommSemigroup MaxCardinality where
  mul := multiply
  mul_assoc := multiply_assoc
  mul_comm := multiply_comm

theorem atMostOne_of_mul {l r : MaxCardinality} (h : (l * r).atMostOne = true) :
    l * r = bounded 0 ∨ l.atMostOne = true ∧ r.atMostOne = true := by
  change multiply l r = bounded 0 ∨ _
  by_cases hl : l = bounded 0
  · exact .inl (hl ▸ zero_multiply r)
  by_cases hr : r = bounded 0
  · exact .inl (hr ▸ multiply_zero l)
  change (multiply l r).atMostOne = true at h
  rcases l with l | _
  · rcases r with r | _
    · have hl : l ≠ 0 := fun h => hl (congrArg _ h)
      have hr : r ≠ 0 := fun h => hr (congrArg _ h)
      rw [multiply_bounded l r hl hr, ofCount] at h
      split at h
      · have hle : l * r ≤ 1 := of_decide_eq_true h
        have hl1 : l ≤ 1 := Nat.le_trans (Nat.le_mul_of_pos_right l (Nat.pos_of_ne_zero hr)) hle
        have hr1 : r ≤ 1 := Nat.le_trans (Nat.le_mul_of_pos_left r (Nat.pos_of_ne_zero hl)) hle
        exact .inr ⟨decide_eq_true hl1, decide_eq_true hr1⟩
      · cases h
    · rw [multiply_unbounded hl] at h
      cases h
  · rw [multiply_comm, multiply_unbounded hr] at h
    cases h

section

variable {ι : Type} {f : ι → MaxCardinality} {l : List ι} {m : MaxCardinality}

theorem zero_mul_coe (x : WithOne MaxCardinality) : ((bounded 0 : MaxCardinality) : WithOne MaxCardinality) * x =
    (bounded 0 : MaxCardinality) := by
  cases x using WithOne.recOneCoe with
  | one => exact mul_one _
  | coe x => exact congrArg _ (zero_multiply x)

theorem eq_zero_of_prod (h : (m : WithOne MaxCardinality) = (l.map (fun i => (f i : WithOne MaxCardinality))).prod)
    (hzero : ∃ i ∈ l, f i = bounded 0) : m = bounded 0 := by
  obtain ⟨i, hi, hzero⟩ := hzero
  obtain ⟨before, after, rfl⟩ := List.append_of_mem hi
  rw [List.map_append, List.prod_append, List.map_cons, List.prod_cons, hzero, zero_mul_coe, mul_comm,
    zero_mul_coe] at h
  exact WithOne.coe_inj.1 h

theorem eq_nil_of_prod_eq_one (h : (l.map (fun i => (f i : WithOne MaxCardinality))).prod = 1) : l = [] := by
  cases l with
  | nil => rfl
  | cons i l =>
    rw [List.map_cons, List.prod_cons] at h
    cases hrest : (l.map (fun i => (f i : WithOne MaxCardinality))).prod using WithOne.recOneCoe with
    | one =>
      rw [hrest, mul_one] at h
      exact absurd h WithOne.coe_ne_one
    | coe n =>
      rw [hrest] at h
      exact absurd h WithOne.coe_ne_one

/-- A product of at most one has a zero, or factors of at most one only. -/
theorem atMostOne_of_prod (h : (m : WithOne MaxCardinality) = (l.map (fun i => (f i : WithOne MaxCardinality))).prod)
    (hone : m.atMostOne = true) : m = bounded 0 ∨ ∀ i ∈ l, (f i).atMostOne = true := by
  induction l generalizing m with
  | nil => exact .inr fun i hi => absurd hi List.not_mem_nil
  | cons i l ih =>
    rw [List.map_cons, List.prod_cons] at h
    cases hrest : (l.map (fun i => (f i : WithOne MaxCardinality))).prod using WithOne.recOneCoe with
    | one =>
      obtain rfl := eq_nil_of_prod_eq_one hrest
      rw [hrest, mul_one] at h
      exact .inr (List.forall_mem_singleton.2 (WithOne.coe_inj.1 h ▸ hone))
    | coe n =>
      rw [hrest] at h
      obtain rfl : m = f i * n := WithOne.coe_inj.1 h
      rcases atMostOne_of_mul hone with hzero | ⟨hi, hn⟩
      · exact .inl hzero
      · rcases ih hrest.symm hn with rfl | hl
        · exact .inl (multiply_zero _)
        · exact .inr (List.forall_mem_cons.2 ⟨hi, hl⟩)

end

end MaxCardinality
end Cascade
