import TransferQueue.Json.Token

/-!
# From values to texts

A JSON value is written in one of two layouts: compactly, which is the text of its tokens without
any blanks, or with every item and member on a line of its own, indented by two spaces for each
level.

* `Value.tokens` lists the tokens of a value;
* `Value.compact` and `Value.pretty` write it.
-/

namespace TransferQueue

namespace Json

namespace Value

mutual

/-- The tokens of a value. -/
def tokens : Value → List Token
  | .null => [.null]
  | .bool b => [.bool b]
  | .number n => [.number n]
  | .string content => [.string content]
  | .array items => .openArray :: itemTokens items ++ [.closeArray]
  | .object members => .openObject :: memberTokens members ++ [.closeObject]

/-- The tokens of the items of an array, with commas between them. -/
def itemTokens : List Value → List Token
  | [] => []
  | [v] => tokens v
  | v :: v' :: vs => tokens v ++ .comma :: itemTokens (v' :: vs)

/-- The tokens of the members of an object, with commas between them. -/
def memberTokens : List (Content × Value) → List Token
  | [] => []
  | [(name, v)] => .string name :: .colon :: tokens v
  | (name, v) :: m :: ms => .string name :: .colon :: tokens v ++ .comma :: memberTokens (m :: ms)

end

/-- The text of a value without blanks. -/
def compact (v : Value) : String := String.ofList (v.tokens.flatMap Token.text)

/-- A new line that is indented by `level` steps of two spaces. -/
def newline (level : Nat) : List Char := '\n' :: List.replicate (2 * level) ' '

mutual

/-- The text of a value within `level` arrays and objects, one line for each item and member. -/
def prettyText (level : Nat) : Value → List Char
  | .array (v :: vs) =>
    '[' :: newline (level + 1) ++ prettyItems (level + 1) (v :: vs) ++ newline level ++ [']']
  | .object (m :: ms) =>
    '{' :: newline (level + 1) ++ prettyMembers (level + 1) (m :: ms) ++ newline level ++ ['}']
  | .array [] => ['[', ']']
  | .object [] => ['{', '}']
  | .null => Token.null.text
  | .bool b => (Token.bool b).text
  | .number n => n.text
  | .string content => (Token.string content).text

/-- The lines of the items of an array. -/
def prettyItems (level : Nat) : List Value → List Char
  | [] => []
  | [v] => prettyText level v
  | v :: v' :: vs => prettyText level v ++ ',' :: newline level ++ prettyItems level (v' :: vs)

/-- The lines of the members of an object. -/
def prettyMembers (level : Nat) : List (Content × Value) → List Char
  | [] => []
  | [(name, v)] => (Token.string name).text ++ ':' :: ' ' :: prettyText level v
  | (name, v) :: m :: ms =>
    (Token.string name).text ++ ':' :: ' ' :: prettyText level v
      ++ ',' :: newline level ++ prettyMembers level (m :: ms)

end

/-- The text of a value with one line for each item and member. -/
def pretty (v : Value) : String := String.ofList (prettyText 0 v)

end Value

end Json

end TransferQueue
