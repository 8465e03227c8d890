import Mathlib.Order.Antichain
import Cascade.Proofs.Properties.Bounds

/-!
Minimal keys. The keys that contain no other are the only ones that are incomparable and still lie below all keys
(`KeySet.basis_iff`). A set of columns contains a minimal key of a product just if it contains a key of each side, so it
does not matter in which order the sides are combined, nor where keys are minimized on the way
(`KeySet.minimize_combine`).
-/

namespace Cascade.KeySet

variable {K L B : KeySet}

/-- Some of the keys, none of which contains another, such that every key contains one of them. -/
structure Basis (K B : KeySet) : Prop where
  subset : ∀ k ∈ B, k ∈ K
  antichain : IsAntichain (fun x y : ColumnSet => x.subset y = true) {k | k ∈ B}
  below : ∀ k ∈ K, ∃ x ∈ B, x.subset k = true

theorem basis_minimize (K : KeySet) : Basis K (minimize K) where
  subset _ hk := (mem_minimize.1 hk).1
  antichain x hx _ hy hne hxy :=
    hne ((mem_minimize.1 hy).2 x (mem_minimize.1 hx).1 (SortedSet.subset_iff.1 hxy))
  below _ hk := (exists_mem_minimize hk).imp fun _ h => ⟨h.1, SortedSet.subset_iff.2 h.2⟩

/-- Sets of columns that contain a key contain one of a basis. -/
theorem Basis.covers_iff (h : Basis K B) {k : ColumnSet} : B.Covers k ↔ K.Covers k := by
  constructor
  · rintro ⟨x, hx, hxk⟩
    exact ⟨x, h.subset x hx, hxk⟩
  · rintro ⟨x, hx, hxk⟩
    obtain ⟨y, hy, hyx⟩ := h.below x hx
    exact ⟨y, hy, fun c hc => hxk c (SortedSet.subset_iff.1 hyx c hc)⟩

theorem Basis.minimize_eq (h : Basis K B) : minimize B = B := by
  refine SortedSet.ext_mem fun k => mem_minimize.trans (and_iff_left_of_imp fun hk x hx hxk => ?_)
  exact h.antichain.eq hx hk (SortedSet.subset_iff.2 hxk)

theorem basis_iff : Basis K B ↔ B = minimize K := by
  constructor
  · intro h
    rw [← h.minimize_eq]
    exact minimize_congr fun _ => h.covers_iff
  · rintro rfl
    exact basis_minimize K

theorem covers_minimize_combine {k : ColumnSet} : (minimize (combine K L)).Covers k ↔ K.Covers k ∧ L.Covers k :=
  covers_minimize.trans covers_combine

theorem minimize_combine_minimize (K L : KeySet) : minimize (combine (minimize K) L) = minimize (combine K L) :=
  minimize_congr fun _ => by rw [covers_combine, covers_minimize, covers_combine]

theorem minimize_combine_assoc (K L M : KeySet) :
    minimize (combine (minimize (combine K L)) M) = minimize (combine K (minimize (combine L M))) :=
  minimize_congr fun _ => by
    rw [covers_combine, covers_minimize_combine, covers_combine, covers_minimize_combine, and_assoc]

/-- The minimal keys are the only basis of the keys. Those of a product say which sets of columns contain a key of each
side, and they are the same for both orders of the sides, whether a side is minimized before, and for both ways to bracket
three sides with minimizing in between. -/
theorem minimize_combine :
    (∀ K B : KeySet, Basis K B ↔ B = minimize K) ∧
      ∀ K L M : KeySet, (∀ k, (minimize (combine K L)).Covers k ↔ K.Covers k ∧ L.Covers k) ∧
        minimize (combine K L) = minimize (combine L K) ∧
        minimize (combine (minimize K) L) = minimize (combine K L) ∧
        minimize (combine (minimize (combine K L)) M) = minimize (combine K (minimize (combine L M))) := by
  refine ⟨fun K B => basis_iff, fun K L M => ⟨fun k => covers_minimize_combine, ?_, ?_, ?_⟩⟩
  · rw [combine_comm]
  · exact minimize_combine_minimize K L
  · exact minimize_combine_assoc K L M

/-- Without keys on one side there are none, and the empty key adds nothing. -/
example : minimize (combine (.ofList [.ofList [1], .ofList [1, 2], .ofList [3]]) ∅) = ∅ ∧
    minimize (combine (.ofList [.ofList [1], .ofList [1, 2], .ofList [3]]) (.ofList [∅, .ofList [4]])) =
      .ofList [.ofList [1], .ofList [3]] := by decide

end Cascade.KeySet
