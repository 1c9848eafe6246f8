import TransferQueue.Json.Numeral

/-!
# JSON values

A JSON text is a tree of values.  Numbers keep their digits, and the members of an object keep
their order and may repeat a name: what a repeated or unknown name means is for the reader of the
value to say.

A string may name, by an escape, half of a surrogate pair, which no text contains.  Such a string
is no error as long as nobody asks for its content, so its content is optional here.
-/

namespace TransferQueue

namespace Json

/-- The content of a JSON string, if it is a text. -/
abbrev Content := Option String

/-- A JSON value. -/
inductive Value where
  | null
  | bool (b : Bool)
  | number (n : Numeral)
  | string (content : Content)
  | array (items : List Value)
  | object (members : List (Content × Value))
deriving Inhabited

namespace Value

/-- The value of a text. -/
def ofString (s : String) : Value := .string (some s)

/-- The value of an integer. -/
def ofInt (n : Int) : Value := .number (.ofInt n)

/-- The value of a natural number. -/
def ofNat (n : Nat) : Value := .number (.ofNat n)

/-- The value of a word. -/
def ofUInt64 (n : UInt64) : Value := .ofNat n.toNat

/-- The value of a double; what is infinite or not a number is written as `null`. -/
def ofFloat (x : Float) : Value :=
  match Numeral.ofFloat? x with
  | some n => .number n
  | none => .null

/-- The object with the given members. -/
def ofMembers (members : List (String × Value)) : Value :=
  .object (members.map fun m => (some m.1, m.2))

/-- A value that may be absent, which is written as `null`. -/
def ofOption {α : Type} (f : α → Value) : Option α → Value
  | none => .null
  | some a => f a

/-! ## Reading -/

/-- The truth value that a value is. -/
def bool? : Value → Option Bool
  | .bool b => some b
  | _ => none

/-- The text that a value is. -/
def string? : Value → Option String
  | .string content => content
  | _ => none

/-- The integer that a value is. -/
def int? : Value → Option Int
  | .number n => n.toInt?
  | _ => none

/-- The double that a value is; integers are taken for doubles too. -/
def float? : Value → Option Float
  | .number n => n.toFloat?
  | _ => none

/-- The word of sixty-four bits that a value is. -/
def uint64? (v : Value) : Option UInt64 :=
  v.int?.bind fun n => if 0 ≤ n ∧ n.toNat < UInt64.size then some (UInt64.ofNat n.toNat) else none

/-- The number of sixty-four bits with a sign that a value is. -/
def int64? (v : Value) : Option Int64 :=
  v.int?.bind fun n => if Int64.minValue.toInt ≤ n ∧ n ≤ Int64.maxValue.toInt then some (Int64.ofInt n) else none

/-- The number of thirty-two bits with a sign that a value is. -/
def int32? (v : Value) : Option Int32 :=
  v.int?.bind fun n => if Int32.minValue.toInt ≤ n ∧ n ≤ Int32.maxValue.toInt then some (Int32.ofInt n) else none

/-- The natural number below `2 ^ 32` that a value is. -/
def uint32? (v : Value) : Option Nat :=
  v.int?.bind fun n => if 0 ≤ n ∧ n.toNat < UInt32.size then some n.toNat else none

/-- The value that stands for nothing is `null`; any other is read by `read`. -/
def option? {α : Type} (read : Value → Option α) : Value → Option (Option α)
  | .null => some none
  | v => (read v).map some

end Value

end Json

end TransferQueue
