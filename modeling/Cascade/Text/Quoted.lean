import Cascade.Text.Unprintable

/-!
Texts of lists, and strings between quotes with everything unprintable escaped.
-/

namespace Cascade.Text

/-- The texts of a list, separated by commas. -/
def commaList {α : Type} [ToString α] (l : List α) : String := ", ".intercalate (l.map toString)

/-- The texts of a list between square brackets. -/
def bracketed {α : Type} [ToString α] (l : List α) : String := "[" ++ commaList l ++ "]"

/-- Lower-case hexadecimal digits of a number. -/
def hex (n : Nat) : String := String.ofList (Nat.toDigits 16 n)

/-- One character of a quoted string. -/
def escaped (c : Char) : String :=
  if c = '\x00' then "\\0"
  else if c = '\t' then "\\t"
  else if c = '\r' then "\\r"
  else if c = '\n' then "\\n"
  else if c = '"' then "\\\""
  else if c = '\\' then "\\\\"
  else if isUnprintable c then "\\u\x7b" ++ hex c.toNat ++ "\x7d"
  else String.singleton c

/-- A string between quotes. -/
def quoted (s : String) : String :=
  "\"" ++ String.join (s.toList.map escaped) ++ "\""

end Cascade.Text
