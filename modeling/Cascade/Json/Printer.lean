import Cascade.Json.Basic
/-!
Writing JSON text, without blanks and on one line.
-/

namespace Cascade.Json

/-- The text of a control character: four hexadecimal digits. -/
def controlText (c : Char) : String :=
  let digits := Nat.toDigits 16 c.toNat
  "\\u" ++ String.ofList (List.replicate (4 - digits.length) '0' ++ digits)

/-- A character inside a string: quotes, backslashes and control characters are escaped. -/
def charText (c : Char) : String :=
  if c = '"' then "\\\""
  else if c = '\\' then "\\\\"
  else if c.toNat < 32 then controlText c
  else String.singleton c

def quoted (s : String) : String := "\"" ++ String.join (s.toList.map charText) ++ "\""

mutual

/-- The text of a document. -/
def render : Json → String
  | null => "null"
  | bool b => if b then "true" else "false"
  | num text => text
  | str s => quoted s
  | arr items => "[" ++ ",".intercalate (renderItems items) ++ "]"
  | obj fields => "\x7b" ++ ",".intercalate (renderFields fields) ++ "\x7d"

def renderItems : List Json → List String
  | [] => []
  | x :: xs => render x :: renderItems xs

def renderFields : List (String × Json) → List String
  | [] => []
  | (name, x) :: rest => (quoted name ++ ":" ++ render x) :: renderFields rest

end

end Cascade.Json
