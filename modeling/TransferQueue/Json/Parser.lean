import TransferQueue.Json.Token

/-!
# From tokens to values

A JSON value is built from its tokens in one pass with a stack of the arrays and objects that are
still open, so that values may be nested to any depth.

* `Value.step?` says what one token does, and `Value.build?` is the pass;
* `Value.parse?` reads a whole text.
-/

namespace TransferQueue

namespace Json

/-- An array or object that has not been closed yet. -/
inductive Frame where
  /-- An array and its items so far, the last one first. -/
  | array (items : List Value)
  /-- An object, its members so far, the last one first, and the name of the member whose value
  is being read. -/
  | object (members : List (Content × Value)) (name : Content)

/-- What may come next in the innermost open frame. -/
inductive Expectation where
  /-- A value. -/
  | value
  /-- The first item of an array, or its end. -/
  | firstItem
  /-- The first name of an object, or its end. -/
  | firstName
  /-- A further name of an object whose members so far are given, the last one first. -/
  | name (members : List (Content × Value))
  /-- The colon after a name. -/
  | colon (members : List (Content × Value)) (name : Content)
  /-- Whatever may follow a complete value. -/
  | after (v : Value)

namespace Value

/-- What the first token of a value does. -/
def start? (stack : List Frame) : Token → Option (Expectation × List Frame)
  | .null => some (.after .null, stack)
  | .bool b => some (.after (.bool b), stack)
  | .number n => some (.after (.number n), stack)
  | .string content => some (.after (.string content), stack)
  | .openArray => some (.firstItem, .array [] :: stack)
  | .openObject => some (.firstName, stack)
  | _ => none

/-- What one token does: the new expectation and the frames that are open then. -/
def step? : Expectation → List Frame → Token → Option (Expectation × List Frame)
  | .value, stack, t => start? stack t
  | .firstItem, .array [] :: stack, .closeArray => some (.after (.array []), stack)
  | .firstItem, stack, t => start? stack t
  | .firstName, stack, .closeObject => some (.after (.object []), stack)
  | .firstName, stack, .string name => some (.colon [] name, stack)
  | .name members, stack, .string name => some (.colon members name, stack)
  | .colon members name, stack, .colon => some (.value, .object members name :: stack)
  | .after v, .array items :: stack, .comma => some (.value, .array (v :: items) :: stack)
  | .after v, .array items :: stack, .closeArray =>
    some (.after (.array (v :: items).reverse), stack)
  | .after v, .object members name :: stack, .comma => some (.name ((name, v) :: members), stack)
  | .after v, .object members name :: stack, .closeObject =>
    some (.after (.object ((name, v) :: members).reverse), stack)
  | _, _, _ => none

/-- The value that the tokens complete: nothing may be missing and nothing left over. -/
def build? : Expectation → List Frame → List Token → Option Value
  | .after v, [], [] => some v
  | _, _, [] => none
  | expected, stack, t :: ts =>
    match step? expected stack t with
    | some (expected, stack) => build? expected stack ts
    | none => none

/-- The value of a list of tokens. -/
def ofTokens? (ts : List Token) : Option Value := build? .value [] ts

/-- The value that a text writes. -/
def parse? (text : String) : Option Value := (Token.lex? text.toList).bind ofTokens?

end Value

end Json

end TransferQueue
