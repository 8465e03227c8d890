import Cascade.Algebra.Operator
import Cascade.Collection.Count
import Cascade.Error
import Cascade.Property.Physical

/-!
Cost contexts: ways to compute an expression under required properties, each with its cost. Contexts
are counted: one stays as long as something refers to it, and with the last reference it is pruned
and gives up its own references to the contexts of its inputs.
-/

namespace Cascade

/-- Identifies an expression of a memo. -/
structure ExprId where
  index : Nat
  deriving DecidableEq, Repr

instance : Inhabited ExprId := ⟨⟨0⟩⟩

instance : ToString ExprId := ⟨fun e => twoDigits e.index⟩

/-- Identifies a cost context of a memo. -/
structure ContextId where
  index : Nat
  deriving DecidableEq, Repr

instance : Inhabited ContextId := ⟨⟨0⟩⟩

instance : ToString ContextId := ⟨fun c => "ctx:" ++ toString c.index⟩

/-- An enforcer above an expression, with what it provides and what the plan costs up to it. -/
structure EnforcerStep (κ : Type) where
  op : PhysicalOp
  derived : Derived
  cost : κ

/-- A way to compute a physical expression under required properties. -/
structure CostContext (κ : Type) where
  expr : ExprId
  required : Required
  /-- how the inputs were asked -/
  request : Nat
  inputs : List ContextId
  /-- what the expression provides without enforcers -/
  exprDerived : Derived
  /-- what the expression costs without enforcers -/
  exprCost : κ
  /-- from the lowest to the highest -/
  enforcers : List (EnforcerStep κ)
  derived : Derived
  cost : κ
  /-- how strongly hints prefer it -/
  rank : Nat

/-- Whether a context replaces another one: hints prefer it, or they do not care and it is cheaper. -/
def CostContext.isBetterThan {κ : Type} [LT κ] [DecidableLT κ] (c other : CostContext κ) : Bool :=
  decide (other.rank < c.rank) || (decide (c.rank = other.rank) && decide (c.cost < other.cost))

/-- A place for a context and the number of references to it. -/
structure ContextSlot (κ : Type) where
  /-- none once the context has been pruned -/
  context : Option (CostContext κ)
  refs : Nat

/-- How many references the context at a place holds to its inputs. -/
def ContextSlot.held {κ : Type} (slot : ContextSlot κ) : Nat := (slot.context.map (fun c => c.inputs.length)).getD 0

/-- All contexts that were ever added, and the number of those that were given up. -/
structure ContextStore (κ : Type) where
  slots : List (ContextSlot κ)
  discarded : Nat

namespace ContextStore

variable {κ : Type}

def empty : ContextStore κ := ⟨[], 0⟩

instance : Inhabited (ContextStore κ) := ⟨empty⟩

/-- A context that has to be there. -/
def get (s : ContextStore κ) (id : ContextId) : Except PlanError (CostContext κ) :=
  match s.slots[id.index]? with
  | some ⟨some c, _⟩ => .ok c
  | some ⟨none, _⟩ => .error (.internal ("Cost context " ++ toString id ++ " has been pruned"))
  | none => .error (.internal ("Unknown cost context: " ++ toString id))

/-- Adds a reference. -/
def retain (s : ContextStore κ) (id : ContextId) : ContextStore κ :=
  { s with slots := s.slots.modify id.index (fun slot => { slot with refs := slot.refs + 1 }) }

/-- Adds a context with one reference to it; it refers to the contexts of its inputs. -/
def add (s : ContextStore κ) (c : CostContext κ) : ContextId × ContextStore κ :=
  let retained := c.inputs.foldl retain s
  (⟨s.slots.length⟩, { retained with slots := retained.slots ++ [⟨some c, 1⟩] })

/-- How many references contexts hold. -/
def held (slots : List (ContextSlot κ)) : Nat := total (slots.map ContextSlot.held)

theorem held_set {slots : List (ContextSlot κ)} {i : Nat} {old : ContextSlot κ} (new : ContextSlot κ)
    (h : slots[i]? = some old) : held (slots.set i new) + old.held = held slots + new.held :=
  total_map_set ContextSlot.held new h

/-- Takes back references one by one, the first of the list first. A context that loses its last one
is pruned, and its references to its inputs are taken back next, the last input first. A reference
that is not there cannot be taken back. -/
def releaseAll (s : ContextStore κ) : List ContextId → ContextStore κ
  | [] => s
  | id :: rest =>
    match _h : s.slots[id.index]? with
    | none => s.releaseAll rest
    | some ⟨_, 0⟩ => s.releaseAll rest
    | some ⟨some c, 1⟩ =>
      let pruned : ContextStore κ := ⟨s.slots.set id.index ⟨none, 0⟩, s.discarded + 1⟩
      pruned.releaseAll (c.inputs.reverse ++ rest)
    | some ⟨c, refs + 1⟩ =>
      let left : ContextStore κ := { s with slots := s.slots.set id.index ⟨c, refs⟩ }
      left.releaseAll rest
termination_by ids => ids.length + held s.slots
decreasing_by
  all_goals simp_wf
  · have := held_set ⟨none, 0⟩ _h
    simp only [ContextSlot.held, Option.map_some, Option.map_none, Option.getD_some, Option.getD_none] at this
    omega
  · have := held_set ⟨c, refs⟩ _h
    simp only [ContextSlot.held] at this
    omega

/-- Takes back a reference. -/
def release (s : ContextStore κ) (id : ContextId) : ContextStore κ := s.releaseAll [id]

/-- Counts a context that was not even added. -/
def discard (s : ContextStore κ) : ContextStore κ := { s with discarded := s.discarded + 1 }

end ContextStore
end Cascade
