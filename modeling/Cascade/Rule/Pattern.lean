import Cascade.Algebra.Operator
import Cascade.Text.Quoted

/-!
Patterns of the expressions a rule applies to.
-/

namespace Cascade

/-- A pattern of logical expressions. -/
inductive Pattern
  /-- any input, as a reference to its group -/
  | leaf
  /-- any input, as a whole tree -/
  | tree
  /-- all remaining inputs, each as a reference to its group -/
  | multiLeaf
  /-- an operator of a kind with inputs that match patterns -/
  | operator (kind : LogicalKind) (inputs : List Pattern)

namespace Pattern

instance : Inhabited Pattern := ⟨leaf⟩

/-- An operator of a kind with any inputs. -/
def anyInputs (kind : LogicalKind) : Pattern := operator kind [multiLeaf]

/-- An operator of a kind with a number of inputs. -/
def withLeaves (kind : LogicalKind) (n : Nat) : Pattern := operator kind (List.replicate n leaf)

def isMultiLeaf : Pattern → Bool
  | multiLeaf => true
  | _ => false

/-- Whether the last pattern takes all remaining inputs. -/
def takesRest (inputs : List Pattern) : Bool := inputs.getLast?.any isMultiLeaf

def acceptsArity (inputs : List Pattern) (arity : Nat) : Bool :=
  if takesRest inputs then decide (inputs.length ≤ arity + 1) else decide (inputs.length = arity)

def matchesRoot (p : Pattern) (op : LogicalOp) : Bool :=
  match p with
  | operator kind inputs =>
    decide (kind = op.kind) &&
      (match op.arity with
      | some arity => acceptsArity inputs arity
      | none => true)
  | _ => true

mutual

/-- How many levels of operators the pattern has. -/
def depth : Pattern → Nat
  | operator _ inputs => 1 + maxDepth inputs
  | _ => 0

def maxDepth : List Pattern → Nat
  | [] => 0
  | p :: ps => max p.depth (maxDepth ps)

end

mutual

def text : Pattern → String
  | leaf => "Leaf"
  | tree => "Tree"
  | multiLeaf => "MultiLeaf"
  | operator kind inputs =>
    match texts inputs with
    | [] => kind.name
    | l => kind.name ++ "(" ++ ", ".intercalate l ++ ")"

def texts : List Pattern → List String
  | [] => []
  | p :: ps => p.text :: texts ps

end

instance : ToString Pattern := ⟨text⟩

end Pattern
end Cascade
