import Cascade.Algebra.Display
import Cascade.Property.Physical

/-!
Plans: trees of physical operators, with the cost of every subtree and what it provides. Enforcers
are ordinary nodes.
-/

namespace Cascade

inductive Plan (κ : Type)
  | node (op : PhysicalOp) (inputs : List (Plan κ)) (cost : κ) (derived : Derived)

namespace Plan

variable {κ : Type}

instance [Inhabited κ] : Inhabited (Plan κ) := ⟨.node .spool [] default default⟩

def op : Plan κ → PhysicalOp
  | node op _ _ _ => op

def inputs : Plan κ → List (Plan κ)
  | node _ inputs _ _ => inputs

def cost : Plan κ → κ
  | node _ _ cost _ => cost

def derived : Plan κ → Derived
  | node _ _ _ derived => derived

mutual

/-- The operators of a plan, each before those of its inputs. -/
def ops : Plan κ → List PhysicalOp
  | node op inputs _ _ => op :: inputOps inputs

def inputOps : List (Plan κ) → List PhysicalOp
  | [] => []
  | p :: ps => p.ops ++ inputOps ps

end

/-- The number of nodes. -/
def size (p : Plan κ) : Nat := p.ops.length

/-- Whether some operator passes a test. -/
def any (p : Plan κ) (test : PhysicalOp → Bool) : Bool := p.ops.any test

mutual

/-- The lines of a plan: a line per operator, inputs indented below. -/
def lines : Plan κ → List String
  | node op inputs _ _ => Text.treeLines (toString op) (inputLines inputs)

def inputLines : List (Plan κ) → List (List String)
  | [] => []
  | p :: ps => p.lines :: inputLines ps

end

instance : ToString (Plan κ) := ⟨fun p => "\n".intercalate p.lines⟩

end Plan
end Cascade
