/-!
Errors of the planner. An error says which kind of contract was broken; its wording is the text a
caller reads (`PlanError.message`).
-/

namespace Cascade

/-- What a search can run out of. -/
inductive Resource
  | cancelled
  | timeout
  | memoLimit
  | alternativesBudget
  deriving DecidableEq, Repr

instance : ToString Resource where
  toString
    | .cancelled => "cancelled"
    | .timeout => "timeout"
    | .memoLimit => "memo limit"
    | .alternativesBudget => "alternatives budget"

/-- Why a request to the planner failed. -/
inductive PlanError
  /-- a function was called with an argument it does not accept -/
  | argument (text : String)
  /-- an internal invariant does not hold -/
  | internal (text : String)
  /-- an internal invariant does not hold because of another error -/
  | internalCausedBy (text : String) (cause : PlanError)
  | notImplemented (text : String)
  /-- the query has no plan this planner can build -/
  | unsupported (text : String)
  /-- the search ran out of a resource -/
  | exhausted (resource : Resource) (text : String)
  /-- an object of the schema is missing or malformed -/
  | catalog (text : String)
  deriving DecidableEq, Repr

namespace PlanError

/-- The wording of an error, with the prefix of its kind. -/
def message : PlanError → String
  | argument text => "Argument error: " ++ text
  | internal text => "Internal error: " ++ text
  | internalCausedBy text cause => "Internal error: " ++ text ++ " caused by: " ++ cause.message
  | notImplemented text => "Not implemented: " ++ text
  | unsupported text => "Not supported: " ++ text
  | exhausted resource text => "Resource exhausted: " ++ toString resource ++ ": " ++ text
  | catalog text => "Catalog error: " ++ text

/-- Whether another planner should be asked: the query is fine, this planner gave up on it. -/
def isFallback : PlanError → Bool
  | unsupported _ => true
  | exhausted _ _ => true
  | _ => false

def cause? : PlanError → Option PlanError
  | internalCausedBy _ cause => some cause
  | _ => none

end PlanError

instance : ToString PlanError := ⟨PlanError.message⟩

end Cascade
