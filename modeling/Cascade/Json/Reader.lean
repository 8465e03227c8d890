import Cascade.Json.Token
/-!
Reading JSON text. The reader goes over the tokens once. The arrays and objects it stands in are a
stack of frames, so that no nesting is too deep for it.
-/

namespace Cascade.Json

/-- An array or object part way through, with what it holds so far in reverse order. -/
inductive Frame
  | arr (done : List Json)
  /-- an object that waits for the value of the field `name` -/
  | obj (done : List (String × Json)) (name : String)

mutual

/-- Reads on where a value has to begin. -/
def readValue (frames : List Frame) : List Token → Option Json
  | .null :: ts => readAfter .null frames ts
  | .bool b :: ts => readAfter (.bool b) frames ts
  | .num t :: ts => readAfter (.num t) frames ts
  | .str s :: ts => readAfter (.str s) frames ts
  | .leftBracket :: .rightBracket :: ts => readAfter (.arr []) frames ts
  | .leftBracket :: ts => readValue (.arr [] :: frames) ts
  | .leftBrace :: .rightBrace :: ts => readAfter (.obj []) frames ts
  | .leftBrace :: .str name :: .colon :: ts => readValue (.obj [] name :: frames) ts
  | _ => none

/-- Reads on after the value `x`, which goes into the innermost frame. -/
def readAfter (x : Json) : List Frame → List Token → Option Json
  | [], [] => some x
  | .arr done :: frames, .comma :: ts => readValue (.arr (x :: done) :: frames) ts
  | .arr done :: frames, .rightBracket :: ts => readAfter (.arr (x :: done).reverse) frames ts
  | .obj done name :: frames, .comma :: .str next :: .colon :: ts =>
    readValue (.obj ((name, x) :: done) next :: frames) ts
  | .obj done name :: frames, .rightBrace :: ts =>
    readAfter (.obj ((name, x) :: done).reverse) frames ts
  | _, _ => none

end

/-- The document a text is; `none` if it is none. -/
def parse? (text : String) : Option Json := (tokens? [] text.toList).bind (readValue [])

end Cascade.Json
