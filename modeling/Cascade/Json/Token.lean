import Cascade.Json.Basic
/-!
The tokens of JSON text. `tokens?` cuts a text into tokens; every step of it takes at least one
character away.
-/

namespace Cascade.Json

/-- The smallest parts of JSON text. -/
inductive Token
  | leftBrace
  | rightBrace
  | leftBracket
  | rightBracket
  | comma
  | colon
  | null
  | bool (b : Bool)
  /-- a number, as it is written -/
  | num (text : String)
  /-- a string, its escapes already replaced by what they stand for -/
  | str (s : String)
  deriving DecidableEq, Repr

/-- The characters that may stand between tokens. -/
def isBlank (c : Char) : Bool := c = ' ' || c = '\t' || c = '\n' || c = '\r'

/-- The characters a number is written with. -/
def isNumeric (c : Char) : Bool :=
  c.isDigit || c = '-' || c = '+' || c = '.' || c = 'e' || c = 'E'

def punctuation? (c : Char) : Option Token :=
  match c with
  | '\x7b' => some .leftBrace
  | '\x7d' => some .rightBrace
  | '[' => some .leftBracket
  | ']' => some .rightBracket
  | ',' => some .comma
  | ':' => some .colon
  | _ => none

def hexDigit? (c : Char) : Option Nat :=
  let n := c.toNat
  if 48 ≤ n && n ≤ 57 then some (n - 48)
  else if 97 ≤ n && n ≤ 102 then some (n - 87)
  else if 65 ≤ n && n ≤ 70 then some (n - 55)
  else none

/-- The value of a sequence of hexadecimal digits. -/
def hexValue? (l : List Char) : Option Nat :=
  l.foldlM (fun acc c => (hexDigit? c).map (acc * 16 + ·)) 0

/-- The character that a backslash and a letter stand for. -/
def escaped? (c : Char) : Option Char :=
  match c with
  | 'n' => some '\n'
  | 't' => some '\t'
  | 'r' => some '\r'
  | 'b' => some '\x08'
  | 'f' => some '\x0c'
  | '"' => some '"'
  | '\\' => some '\\'
  | '/' => some '/'
  | _ => none

/-- The first half of a character beyond the 16-bit range. -/
def isHighSurrogate (n : Nat) : Bool := decide (0xD800 ≤ n) && decide (n < 0xDC00)

/-- The second half of a character beyond the 16-bit range. -/
def isLowSurrogate (n : Nat) : Bool := decide (0xDC00 ≤ n) && decide (n < 0xE000)

/-- The rest of a string after its opening quote: what it says, and the text after its closing
quote. Two escaped surrogates in their order are one character, a single one is refused. -/
def stringBody? (acc : List Char) : List Char → Option (String × List Char)
  | [] => none
  | '"' :: cs => some (String.ofList acc.reverse, cs)
  | '\\' :: 'u' :: a :: b :: c :: d :: cs =>
    match hexValue? [a, b, c, d] with
    | none => none
    | some n =>
      if isHighSurrogate n then
        match cs with
        | '\\' :: 'u' :: e :: f :: g :: h :: cs =>
          match hexValue? [e, f, g, h] with
          | none => none
          | some m =>
            if isLowSurrogate m then
              stringBody? (Char.ofNat (0x10000 + (n - 0xD800) * 1024 + (m - 0xDC00)) :: acc) cs
            else none
        | _ => none
      else if isLowSurrogate n then none
      else stringBody? (Char.ofNat n :: acc) cs
  | '\\' :: c :: cs =>
    match escaped? c with
    | none => none
    | some c => stringBody? (c :: acc) cs
  | c :: cs => stringBody? (c :: acc) cs

theorem length_lt_of_stringBody? {acc cs rest : List Char} {s : String}
    (h : stringBody? acc cs = some (s, rest)) : rest.length < cs.length := by
  fun_induction stringBody? acc cs <;> simp_all <;> omega

/-- A word without quotes. -/
def word? (l : List Char) : Option Token :=
  if l = ['n', 'u', 'l', 'l'] then some .null
  else if l = ['t', 'r', 'u', 'e'] then some (.bool true)
  else if l = ['f', 'a', 'l', 's', 'e'] then some (.bool false)
  else none

/-- The first token of a text and the text after it; the text does not start with a blank. -/
def firstToken? (c : Char) (cs : List Char) : Option (Token × List Char) :=
  match punctuation? c with
  | some t => some (t, cs)
  | none =>
    if c = '"' then (stringBody? [] cs).map (fun r => (.str r.1, r.2))
    else if isNumeric c then
      some (.num (String.ofList (c :: cs.takeWhile isNumeric)), cs.dropWhile isNumeric)
    else (word? (c :: cs.takeWhile Char.isLower)).map (fun t => (t, cs.dropWhile Char.isLower))

theorem length_le_of_firstToken? {c : Char} {cs rest : List Char} {t : Token}
    (h : firstToken? c cs = some (t, rest)) : rest.length ≤ cs.length := by
  unfold firstToken? at h
  split at h
  · simp_all
  split at h
  · obtain ⟨r, hr, he⟩ := Option.map_eq_some_iff.1 h
    have := length_lt_of_stringBody? hr
    simp_all
    omega
  split at h
  · obtain rfl : cs.dropWhile isNumeric = rest := by simp_all
    exact (List.dropWhile_sublist _).length_le
  · obtain ⟨_, _, he⟩ := Option.map_eq_some_iff.1 h
    obtain rfl : cs.dropWhile Char.isLower = rest := by simp_all
    exact (List.dropWhile_sublist _).length_le

/-- The tokens of a text after those in `acc`, which are in reverse order; `none` if some part of
the text is no token. -/
def tokens? (acc : List Token) (cs : List Char) : Option (List Token) :=
  match cs with
  | [] => some acc.reverse
  | c :: cs =>
    if isBlank c then tokens? acc cs
    else
      match _first : firstToken? c cs with
      | none => none
      | some (t, rest) => tokens? (t :: acc) rest
termination_by cs.length
decreasing_by
  · simp
  · have := length_le_of_firstToken? _first
    simp
    omega

end Cascade.Json
