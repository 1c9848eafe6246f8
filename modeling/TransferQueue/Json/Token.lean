import TransferQueue.Json.Quoted

/-!
# The tokens of a JSON text

A JSON text is cut into tokens: brackets, commas, colons, the three literal names, numbers and
strings.  Blanks between tokens are passed over; every other character belongs to a token, or the
text is no JSON text.

* `Token.read?` takes one token off the front of a text, and `Token.length_lt_of_read?` says that
  this makes the text shorter;
* `Token.lex?` cuts a whole text into tokens;
* `Token.text` writes a token.
-/

namespace TransferQueue

namespace Json

/-- A token of a JSON text. -/
inductive Token where
  | openArray
  | closeArray
  | openObject
  | closeObject
  | comma
  | colon
  | null
  | bool (b : Bool)
  | number (n : Numeral)
  | string (content : Content)
deriving DecidableEq, Repr

namespace Token

/-- The blanks that may stand between tokens. -/
def isBlank (c : Char) : Bool := c = ' ' || c = '\t' || c = '\n' || c = '\r'

/-- The token at the front of a text, and what follows it. -/
def read? : List Char → Option (Token × List Char)
  | '[' :: cs => some (.openArray, cs)
  | ']' :: cs => some (.closeArray, cs)
  | '{' :: cs => some (.openObject, cs)
  | '}' :: cs => some (.closeObject, cs)
  | ',' :: cs => some (.comma, cs)
  | ':' :: cs => some (.colon, cs)
  | '"' :: cs => (Quoted.read? [] cs).map fun r => (.string (Quoted.content r.1), r.2)
  | 'n' :: 'u' :: 'l' :: 'l' :: cs => some (.null, cs)
  | 't' :: 'r' :: 'u' :: 'e' :: cs => some (.bool true, cs)
  | 'f' :: 'a' :: 'l' :: 's' :: 'e' :: cs => some (.bool false, cs)
  | cs => (Numeral.read? cs).map fun r => (.number r.1, r.2)

theorem length_lt_of_read? {cs rest : List Char} {t : Token}
    (h : read? cs = some (t, rest)) : rest.length < cs.length := by
  unfold read? at h
  split at h
  case h_7 =>
    obtain ⟨⟨points, after⟩, hr, h⟩ := Option.map_eq_some_iff.1 h
    have := Quoted.length_lt_of_read? hr
    simp only [Prod.mk.injEq] at h
    simp only [List.length_cons, ← h.2]
    omega
  case h_11 =>
    obtain ⟨⟨n, after⟩, hr, h⟩ := Option.map_eq_some_iff.1 h
    have := Numeral.length_lt_of_read? hr
    simp only [Prod.mk.injEq] at h
    rw [← h.2]
    exact this
  all_goals
    simp only [Option.some.injEq, Prod.mk.injEq] at h
    simp only [List.length_cons, ← h.2]
    omega

/-- The tokens of a text, after those that were already found, which are given in reverse
order. -/
def lexOnto? (found : List Token) (cs : List Char) : Option (List Token) :=
  match cs with
  | [] => some found.reverse
  | c :: rest =>
    if isBlank c then lexOnto? found rest
    else
      match _h : read? (c :: rest) with
      | some (t, after) => lexOnto? (t :: found) after
      | none => none
termination_by cs.length
decreasing_by
  · simp
  · exact length_lt_of_read? _h

/-- The tokens of a text, if it consists of tokens and blanks. -/
def lex? (cs : List Char) : Option (List Token) := lexOnto? [] cs

/-- The text of a token. -/
def text : Token → List Char
  | .openArray => ['[']
  | .closeArray => [']']
  | .openObject => ['{']
  | .closeObject => ['}']
  | .comma => [',']
  | .colon => [':']
  | .null => ['n', 'u', 'l', 'l']
  | .bool true => ['t', 'r', 'u', 'e']
  | .bool false => ['f', 'a', 'l', 's', 'e']
  | .number n => n.text
  | .string content => Quoted.text (content.getD "")

end Token

end Json

end TransferQueue
