/-!
Decimal text of binary floating-point numbers. A finite float is an exact fraction; every text here
is obtained from that fraction by exact integer arithmetic: a fixed number of places, a fixed number
of significant digits, or the fewest digits that read back as the same float.
-/

namespace Cascade.Decimal

/-- A float taken apart: a finite one is `± mantissa * 2 ^ exponent`. -/
inductive Parts
  | nan
  | infinite (negative : Bool)
  | finite (negative : Bool) (mantissa : Nat) (exponent : Int)
  deriving DecidableEq, Repr

/-- Reads the sign, the exponent field and the fraction field of a double. -/
def parts (x : Float) : Parts :=
  let bits := x.toBits.toNat
  let negative := bits / Nat.pow 2 63 == 1
  let field : Nat := bits / Nat.pow 2 52 % Nat.pow 2 11
  let fraction : Nat := bits % Nat.pow 2 52
  if field = 2047 then
    if fraction = 0 then .infinite negative else .nan
  else if field = 0 then .finite negative fraction (-1074)
  else .finite negative (Nat.pow 2 52 + fraction) ((field : Int) - 1075)

/-- A non-negative rational number `num / den`. -/
structure Fraction where
  num : Nat
  den : Nat

/-- `mantissa * base ^ exponent` as a fraction. -/
def Fraction.scaled (mantissa base : Nat) (exponent : Int) : Fraction :=
  if exponent < 0 then ⟨mantissa, Nat.pow base exponent.natAbs⟩ else ⟨mantissa * Nat.pow base exponent.natAbs, 1⟩

/-- `f * 10 ^ e`. -/
def Fraction.shift (f : Fraction) (e : Int) : Fraction :=
  if e < 0 then ⟨f.num, f.den * Nat.pow 10 e.natAbs⟩ else ⟨f.num * Nat.pow 10 e.natAbs, f.den⟩

/-- The nearest integer; a half goes to the even neighbour. -/
def Fraction.round (f : Fraction) : Nat :=
  let q := f.num / f.den
  let r := f.num % f.den
  if 2 * r > f.den ∨ 2 * r = f.den ∧ q % 2 = 1 then q + 1 else q

def Fraction.le (f g : Fraction) : Bool := f.num * g.den ≤ g.num * f.den

def Fraction.lt (f g : Fraction) : Bool := f.num * g.den < g.num * f.den

/-- The number of decimal digits of a positive number. -/
def digitCount (n : Nat) : Nat := (toString n).length

/-- The exponent `k` with `10 ^ k ≤ f < 10 ^ (k + 1)`, for a positive fraction. -/
def Fraction.magnitude (f : Fraction) : Int :=
  let k : Int := (digitCount f.num : Int) - digitCount f.den
  if (Fraction.scaled 1 10 k).le f then k else k - 1

def zeros (n : Nat) : String := String.ofList (List.replicate n '0')

/-- Pads a number with zeros on the left. -/
def padded (width n : Nat) : String :=
  let digits := toString n
  zeros (width - digits.length) ++ digits

def signed (negative : Bool) (text : String) : String := if negative then "-" ++ text else text

/-- `n * 10 ^ e` in positional notation. -/
def positional (n : Nat) (e : Int) : String :=
  if e < 0 then
    let places := e.natAbs
    let digits := padded (places + 1) n
    let whole := digits.length - places
    String.ofList (digits.toList.take whole) ++ "." ++ String.ofList (digits.toList.drop whole)
  else toString n ++ zeros e.natAbs

/-- A float with a fixed number of places, rounded from its exact value. -/
def fixed (places : Nat) (x : Float) : String :=
  match parts x with
  | .nan => "NaN"
  | .infinite negative => signed negative "inf"
  | .finite negative m e =>
    let n := ((Fraction.scaled m 2 e).shift places).round
    signed negative (positional n (-(places : Int)))

/-- A significand of the given number of digits and the exponent of its first digit. -/
def significant (digits : Nat) (f : Fraction) : Nat × Int :=
  if f.num = 0 then (0, 0)
  else
    let k := f.magnitude
    let n := (f.shift ((digits : Int) - 1 - k)).round
    if n = Nat.pow 10 digits then (Nat.pow 10 (digits - 1), k + 1) else (n, k)

/-- A float in scientific notation with a fixed number of significant digits. -/
def scientific (digits : Nat) (x : Float) : String :=
  match parts x with
  | .nan => "nan"
  | .infinite negative => signed negative "inf"
  | .finite negative m e =>
    let (n, k) := significant digits (Fraction.scaled m 2 e)
    let text := padded digits n
    signed negative (String.ofList (text.toList.take 1) ++ "." ++ String.ofList (text.toList.drop 1)
      ++ "e" ++ toString k)

/-- The open or closed interval of numbers that read back as a given float. -/
structure ReadBack where
  low : Fraction
  high : Fraction
  closed : Bool

def ReadBack.contains (i : ReadBack) (f : Fraction) : Bool :=
  if i.closed then i.low.le f && f.le i.high else i.low.lt f && f.lt i.high

/-- Half the distance to each neighbour; below a power of two the lower neighbour is nearer. -/
def ReadBack.of (m : Nat) (e : Int) : ReadBack :=
  let low := if m = Nat.pow 2 52 ∧ e > -1074 then 4 * m - 1 else 4 * m - 2
  { low := .scaled low 2 (e - 2), high := .scaled (4 * m + 2) 2 (e - 2), closed := m % 2 = 0 }

/-- The distance between two fractions. -/
def Fraction.dist (f g : Fraction) : Fraction :=
  ⟨(f.num * g.den - g.num * f.den) + (g.num * f.den - f.num * g.den), f.den * g.den⟩

/-- The nearest number with digits down to `10 ^ unit` that reads back, if there is one; of two that
are equally near the larger one. -/
def ReadBack.onGrid (i : ReadBack) (f : Fraction) (unit : Int) : Option Nat :=
  let below := let g := f.shift (-unit); g.num / g.den
  let candidates := [below, below + 1].filter (fun n => i.contains (.scaled n 10 unit))
  match candidates with
  | [a, b] => if (f.dist (.scaled a 10 unit)).lt (f.dist (.scaled b 10 unit)) then some a else some b
  | [a] => some a
  | _ => none

/-- The fewest significant digits that read back, as a number and the exponent of its last digit.
The coarsest grid tried is above the number itself, as a power of ten just above it may read back. -/
def shortestDigits (m : Nat) (e : Int) : Nat × Int :=
  let f := Fraction.scaled m 2 e
  let i := ReadBack.of m e
  let k := f.magnitude
  let hit := (List.range 18).findSome? (fun (p : Nat) =>
    let unit := k + 1 - (p : Int)
    (i.onGrid f unit).map (fun n => (n, unit)))
  hit.getD (significant 17 f)

/-- A float in positional notation with the fewest digits that read back as the same float. -/
def shortest (x : Float) : String :=
  match parts x with
  | .nan => "NaN"
  | .infinite negative => signed negative "inf"
  | .finite negative m e =>
    if m = 0 then signed negative "0"
    else
      let (n, unit) := shortestDigits m e
      signed negative (positional n unit)

end Cascade.Decimal
