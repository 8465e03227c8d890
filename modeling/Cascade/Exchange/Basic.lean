import Cascade.Decimal
import Cascade.Error
import Cascade.Json.Basic
/-!
The exchange format: values of the planner as JSON documents. `Decode` reads documents and `Encode`
writes them. This module has the parts that every kind of value needs: failures, texts, flags,
numbers, lists, pairs and names.
-/

namespace Cascade

/-- Why a request has no result. -/
inductive Failure
  /-- the document does not say what it has to say -/
  | badInput
  | planner (e : PlanError)

/-- What a document says. -/
abbrev Decoded := Except Failure

/-- The document does not say what it has to say. -/
def badInput {α : Type} : Decoded α := .error .badInput

/-- A result of the planner. -/
def fromPlanner {α : Type} (x : Except PlanError α) : Decoded α := x.mapError .planner

/-- A result that may be missing because the document is wrong. -/
def present {α : Type} (x : Option α) : Decoded α :=
  match x with
  | some a => .ok a
  | none => badInput

namespace Decode

/-- The items of an array; null stands for the empty array. -/
def items (x : Json) : Decoded (List Json) := present x.items?

def listOf {α : Type} (f : Json → Decoded α) (x : Json) : Decoded (List α) := do
  (← items x).mapM f

def text (x : Json) : Decoded String :=
  match x with
  | .str s => pure s
  | _ => badInput

def bool (x : Json) : Decoded Bool :=
  match x with
  | .bool b => pure b
  | _ => badInput

/-- Null means that there is no value. -/
def optional {α : Type} (f : Json → Decoded α) (x : Json) : Decoded (Option α) :=
  match x with
  | .null => pure none
  | x => some <$> f x

/-- Null means `default`. -/
def orElse {α : Type} (default : α) (f : Json → Decoded α) (x : Json) : Decoded α :=
  match x with
  | .null => pure default
  | x => f x

/-- A boolean that is false where it is not given. -/
def flag (x : Json) : Decoded Bool := orElse false bool x

/-- The number that a nonempty sequence of digits writes. -/
def digits? (l : List Char) : Option Nat :=
  if l.isEmpty || !l.all Char.isDigit then none
  else some (l.foldl (fun acc c => acc * 10 + (c.toNat - 48)) 0)

/-- Splits a leading minus sign off. -/
def splitSign (l : List Char) : Bool × List Char :=
  match l with
  | '-' :: l => (true, l)
  | l => (false, l)

/-- A natural number below `2 ^ 64`. -/
def nat (x : Json) : Decoded Nat :=
  match x with
  | .num t =>
    match digits? t.toList with
    | some n => if n < Nat.pow 2 64 then pure n else badInput
    | none => badInput
  | _ => badInput

/-- An integer of 64 bits with sign. -/
def long (x : Json) : Decoded Int :=
  match x with
  | .num t =>
    let (negative, l) := splitSign t.toList
    match digits? l with
    | some n =>
      if negative then (if n ≤ Nat.pow 2 63 then pure (-(n : Int)) else badInput)
      else if n < Nat.pow 2 63 then pure (n : Int)
      else badInput
    | none => badInput
  | _ => badInput

/-- The exponent part of a decimal number: nothing, or the letter, a sign and digits. -/
def exponent? (l : List Char) : Option Int :=
  match l with
  | [] => some 0
  | c :: l =>
    if c = 'e' || c = 'E' then
      match l with
      | '-' :: l => (digits? l).map (fun n => -(n : Int))
      | '+' :: l => (digits? l).map (fun n => (n : Int))
      | l => (digits? l).map (fun n => (n : Int))
    else none

/-- The digits of a decimal number without sign and the power of ten they are scaled by. -/
def decimal? (l : List Char) : Option (Nat × Int) := do
  let whole := l.takeWhile Char.isDigit
  let (places, rest) :=
    match l.dropWhile Char.isDigit with
    | '.' :: l => (l.takeWhile Char.isDigit, l.dropWhile Char.isDigit)
    | l => ([], l)
  let mantissa ← digits? (whole ++ places)
  let exponent ← exponent? rest
  some (mantissa, exponent - places.length)

/-- A float: a number, or one of the three names of what no number writes. -/
def float (x : Json) : Decoded Float :=
  match x with
  | .str "nan" => pure (0.0 / 0.0)
  | .str "inf" => pure (1.0 / 0.0)
  | .str "-inf" => pure (-1.0 / 0.0)
  | .num t =>
    let (negative, l) := splitSign t.toList
    match decimal? l with
    | none => badInput
    | some (m, e) =>
      let v := Float.ofScientific m (decide (e < 0)) e.natAbs
      pure (if negative then -v else v)
  | _ => badInput

def pair {α β : Type} (f : Json → Decoded α) (g : Json → Decoded β) (x : Json) : Decoded (α × β) := do
  match ← items x with
  | [a, b] => do
    let a ← f a
    let b ← g b
    pure (a, b)
  | _ => badInput

/-- The value of a name. -/
def oneOf {α : Type} (names : List (String × α)) (x : Json) : Decoded α := do
  let name ← text x
  present ((names.find? (fun e => decide (e.1 = name))).map Prod.snd)

/-- An error: its kind, its text and, for a broken invariant, maybe the error behind it. -/
def planError (x : Json) : Decoded PlanError := do
  let kind ← text (x.field "kind")
  let message ← text (x.field "message")
  match kind with
  | "Argument" => pure (.argument message)
  | "Internal" =>
    if _cause : (x.field "cause").isNull then pure (.internal message)
    else PlanError.internalCausedBy message <$> planError (x.field "cause")
  | "NotImplemented" => pure (.notImplemented message)
  | "Unsupported" => pure (.unsupported message)
  | "Catalog" => pure (.catalog message)
  | "Cancelled" => pure (.exhausted .cancelled message)
  | "Timeout" => pure (.exhausted .timeout message)
  | "MemoLimit" => pure (.exhausted .memoLimit message)
  | "AlternativesBudget" => pure (.exhausted .alternativesBudget message)
  | _ => badInput
termination_by x
decreasing_by exact Json.sizeOf_field_lt (fun h => _cause (by simp [h, Json.isNull]))

end Decode

namespace Encode

def nat (n : Nat) : Json := .num (toString n)

/-- A float is written as text, with ten significant digits. -/
def float (x : Float) : Json := .str (Decimal.scientific 10 x)

def text {α : Type} [ToString α] (x : α) : Json := .str (toString x)

def list {α : Type} (f : α → Json) (l : List α) : Json := .arr (l.map f)

def optional {α : Type} (f : α → Json) : Option α → Json
  | none => .null
  | some a => f a

def pair {α β : Type} (f : α → Json) (g : β → Json) (p : α × β) : Json := .arr [f p.1, g p.2]

/-- The name of a value in a list of names. -/
def nameIn {α : Type} [DecidableEq α] (names : List (String × α)) (a : α) : String :=
  ((names.find? (fun e => decide (e.2 = a))).map Prod.fst).getD ""

def errorKind : PlanError → String
  | .argument _ => "Argument"
  | .internal _ => "Internal"
  | .internalCausedBy _ _ => "Internal"
  | .notImplemented _ => "NotImplemented"
  | .unsupported _ => "Unsupported"
  | .exhausted _ _ => "ResourceExhausted"
  | .catalog _ => "Catalog"

def errorFields (e : PlanError) : List (String × Json) :=
  [("error", .str (errorKind e)), ("message", text e)]

def failureFields : Failure → List (String × Json)
  | .badInput => [("error", .str "BadInput")]
  | .planner e => errorFields e

def failure (f : Failure) : Json := .obj (failureFields f)

/-- What is answered to a request: its result or the failure. -/
def answer : Decoded Json → Json
  | .ok x => x
  | .error f => failure f

def order : Ordering → Json
  | .lt => .str "Less"
  | .eq => .str "Equal"
  | .gt => .str "Greater"

end Encode

end Cascade
