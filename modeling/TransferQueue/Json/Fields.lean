import TransferQueue.Json.Parser

/-!
# Reading structures from JSON

A structure is written as an object with one member for each field, in any order.  It may also be
written as the array of the values of its fields in their order.  A layout says what the fields
are called, whether other members are passed over, and whether an array may leave out fields at
its end.

The fields are then read one after the other: `Fields.required`, `Fields.optional` and
`Fields.withDefault` each take the next field and differ in what they make of a missing one.
-/

namespace TransferQueue

namespace Json

/-- How the fields of a structure are written. -/
structure Layout where
  /-- The names of the fields, in order. -/
  names : List String
  /-- Whether members of other names are passed over; if not, they are refused. -/
  skipsOthers : Bool
  /-- Whether an array may end before the last field. -/
  mayStop : Bool

namespace Layout

/-- The values of the fields, in order, of a structure that is written as an array. -/
def ofItems? (layout : Layout) (items : List Value) : Option (List (Option Value)) :=
  if items.length = layout.names.length
      ∨ layout.mayStop = true ∧ items.length < layout.names.length then
    some (items.map some ++ List.replicate (layout.names.length - items.length) none)
  else none

/-- The value of the member called `name`.  There may be one such member or none. -/
def member? (members : List (Content × Value)) (name : String) : Option (Option Value) :=
  match members.filter fun m => m.1 == some name with
  | [] => some none
  | [m] => some (some m.2)
  | _ => none

/-- The values of the fields, in order, of a structure that is written as an object.  Every name
must be a text. -/
def ofMembers? (layout : Layout) (members : List (Content × Value)) :
    Option (List (Option Value)) :=
  let known := members.all fun m =>
    match m.1 with
    | none => false
    | some name => layout.skipsOthers || layout.names.contains name
  if known then layout.names.mapM (member? members) else none

/-- The values of the fields, in order; a field that is missing has none. -/
def fields? (layout : Layout) : Value → Option (List (Option Value))
  | .array items => layout.ofItems? items
  | .object members => layout.ofMembers? members
  | _ => none

end Layout

/-- A reader of fields, which takes them one after the other. -/
abbrev Fields := StateT (List (Option Value)) Option

namespace Fields

variable {α : Type}

/-- Take the next field. -/
def next : Fields (Option Value)
  | [] => none
  | field :: fields => some (field, fields)

/-- A field that must be there. -/
def required (read : Value → Option α) : Fields α := do
  match ← next with
  | none => failure
  | some v => read v

/-- A field that may be missing or `null`. -/
def optional (read : Value → Option α) : Fields (Option α) := do
  match ← next with
  | none => return none
  | some v => v.option? read

/-- A field that has the value `default` when it is missing. -/
def withDefault (default : α) (read : Value → Option α) : Fields α := do
  match ← next with
  | none => return default
  | some v => read v

/-- Read a structure of the given layout. -/
def run (layout : Layout) (fields : Fields α) (v : Value) : Option α := do
  return (← fields (← layout.fields? v)).1

end Fields

/-- A choice among names is written as the name, or as an object whose only member has that name
and the value `null`. -/
def Value.choice? {α : Type} (choices : List α) (name : α → String) (v : Value) : Option α :=
  match v with
  | .string (some s) | .object [(some s, .null)] => choices.find? fun a => name a == s
  | _ => none

end Json

end TransferQueue
