import TransferQueue.Json.Value

/-!
# Quoted texts

A JSON string is a text between quotes in which some characters are escaped.  Reading goes by way
of code points, because an escape names sixteen bits and may name half of a surrogate pair: two
halves that follow each other make one character, a half that stands alone makes none.

* `Quoted.text` writes a text, `Quoted.read?` and `Quoted.content` read it;
* `Quoted.length_lt_of_read?`: reading makes the rest of the text shorter.
-/

namespace TransferQueue

namespace Json

namespace Quoted

/-- The value of a hexadecimal digit. -/
def hexValue? (c : Char) : Option Nat :=
  if '0' ≤ c ∧ c ≤ '9' then some (c.toNat - 48)
  else if 'a' ≤ c ∧ c ≤ 'f' then some (c.toNat - 87)
  else if 'A' ≤ c ∧ c ≤ 'F' then some (c.toNat - 55)
  else none

/-- The number that four hexadecimal digits write. -/
def hex4? (a b c d : Char) : Option Nat := do
  return 4096 * (← hexValue? a) + 256 * (← hexValue? b) + 16 * (← hexValue? c) + (← hexValue? d)

/-- The character that a letter names after a backslash. -/
def short? : Char → Option Char
  | '"' => some '"'
  | '\\' => some '\\'
  | '/' => some '/'
  | 'b' => some '\x08'
  | 'f' => some '\x0c'
  | 'n' => some '\n'
  | 'r' => some '\r'
  | 't' => some '\t'
  | _ => none

/-- The code points up to the closing quote, and what follows it.  Escapes may name halves of
surrogate pairs, which are kept apart.  A control character must be escaped.  The points that were
already read are given in reverse order. -/
def read? (points : List Nat) : List Char → Option (List Nat × List Char)
  | [] => none
  | '"' :: cs => some (points.reverse, cs)
  | '\\' :: 'u' :: a :: b :: c :: d :: cs =>
    match hex4? a b c d with
    | some n => read? (n :: points) cs
    | none => none
  | '\\' :: c :: cs =>
    match short? c with
    | some e => read? (e.toNat :: points) cs
    | none => none
  | c :: cs => if c = '\\' || c.toNat < 32 then none else read? (c.toNat :: points) cs

/-- Whether a code point is the first half of a surrogate pair. -/
def isHigh (n : Nat) : Bool := 0xD800 ≤ n && n < 0xDC00

/-- Whether a code point is the second half of a surrogate pair. -/
def isLow (n : Nat) : Bool := 0xDC00 ≤ n && n < 0xE000

/-- The characters of a list of code points: a high half and the low half after it make one
character, and halves that stand alone make none.  The characters that were already found are
given in reverse order. -/
def join? (chars : List Char) : List Nat → Option (List Char)
  | [] => some chars.reverse
  | high :: low :: points =>
    if isHigh high && isLow low then
      join? (Char.ofNat (0x10000 + 1024 * (high - 0xD800) + (low - 0xDC00)) :: chars) points
    else if isHigh high || isLow high then none
    else join? (Char.ofNat high :: chars) (low :: points)
  | [point] => if isHigh point || isLow point then none else some (Char.ofNat point :: chars).reverse

/-- The content of a string with the given code points. -/
def content (points : List Nat) : Content := (join? [] points).map String.ofList

/-- The digit of a hexadecimal number below sixteen, in small letters. -/
def hexDigit (n : Nat) : Char := Char.ofNat (if n < 10 then 48 + n else 87 + n)

/-- How a character is written between quotes: quotes, backslashes and control characters are
escaped, with a letter if there is one for it. -/
def escape (c : Char) : List Char :=
  if c = '"' then ['\\', '"']
  else if c = '\\' then ['\\', '\\']
  else if c = '\x08' then ['\\', 'b']
  else if c = '\x0c' then ['\\', 'f']
  else if c = '\n' then ['\\', 'n']
  else if c = '\r' then ['\\', 'r']
  else if c = '\t' then ['\\', 't']
  else if c.toNat < 32 then
    ['\\', 'u', '0', '0', hexDigit (c.toNat / 16), hexDigit (c.toNat % 16)]
  else [c]

/-- A text between quotes. -/
def text (s : String) : List Char := '"' :: s.toList.flatMap escape ++ ['"']

theorem length_lt_of_read? {points result : List Nat} {cs rest : List Char}
    (h : read? points cs = some (result, rest)) : rest.length < cs.length := by
  fun_induction read? points cs with
  | case1 => simp at h
  | case2 points cs =>
    simp only [Option.some.injEq, Prod.mk.injEq] at h
    simp [← h.2]
  | case3 points a b c d cs n hn ih =>
    have := ih h
    simp only [List.length_cons]; omega
  | case4 => simp at h
  | case5 points c cs _ e he ih =>
    have := ih h
    simp only [List.length_cons]; omega
  | case6 => simp at h
  | case7 => simp at h
  | case8 points c cs _ _ _ hc ih =>
    have := ih h
    simp only [List.length_cons]; omega

end Quoted

end Json

end TransferQueue
