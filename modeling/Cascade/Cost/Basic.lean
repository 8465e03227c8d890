import Cascade.Decimal

/-!
Costs of plans.
-/

namespace Cascade

/-- The cost of a plan in abstract units: a float that is neither negative nor undefined. -/
structure Cost where
  value : Float

namespace Cost

/-- A cost; a float that cannot be one counts as nothing. -/
def ofFloat (x : Float) : Cost := if x.isNaN || x < 0.0 then ⟨0.0⟩ else ⟨x⟩

instance : Zero Cost := ⟨⟨0.0⟩⟩

instance : Inhabited Cost := ⟨0⟩

instance : Add Cost := ⟨fun a b => ofFloat (a.value + b.value)⟩

instance : LT Cost := ⟨fun a b => a.value < b.value⟩

instance : DecidableLT Cost := fun a b => inferInstanceAs (Decidable (a.value < b.value))

/-- The cost of several plans together. -/
def sum {κ : Type} [Zero κ] [Add κ] (l : List κ) : κ := l.foldl (· + ·) 0

instance : ToString Cost := ⟨fun c => Decimal.fixed 2 c.value⟩

end Cost
end Cascade
