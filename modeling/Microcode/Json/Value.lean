/-!
# Microcode.Json.Value

JSON values, and writing them with two blanks of indentation per level.

Numbers and strings are kept as they are written: a string is the text between the quotes, with its
escapes.  The members of an object keep their order.
-/

namespace Microcode

/-- A JSON value. -/
inductive JsonValue where
  | null
  | bool (b : Bool)
  | number (text : String)
  | string (raw : String)
  | list (items : List JsonValue)
  | object (members : List (String × JsonValue))

namespace JsonValue

/-- A natural number. -/
def ofNat (n : Nat) : JsonValue := .number (toString n)

/-- The blanks before a row. -/
def margin (indent : Nat) : String := String.ofList (List.replicate indent ' ')

/-- Rows between brackets; without rows the brackets stand alone. -/
def block (indent : Nat) (left right : String) (rows : List String) : String :=
  if rows.isEmpty then left ++ right
  else
    left ++ "\n" ++ ",\n".intercalate (rows.map (margin (indent + 2) ++ ·)) ++
      "\n" ++ margin indent ++ right

mutual

/-- The text of a value; `indent` is the indentation of the row it begins on. -/
def pretty (indent : Nat) : JsonValue → String
  | .null => "null"
  | .bool b => if b then "true" else "false"
  | .number text => text
  | .string raw => "\"" ++ raw ++ "\""
  | .list items => block indent "[" "]" (prettyItems (indent + 2) items)
  | .object members => block indent "\x7b" "\x7d" (prettyMembers (indent + 2) members)

/-- The rows of the items of a list. -/
def prettyItems (indent : Nat) : List JsonValue → List String
  | [] => []
  | item :: rest => pretty indent item :: prettyItems indent rest

/-- The rows of the members of an object. -/
def prettyMembers (indent : Nat) : List (String × JsonValue) → List String
  | [] => []
  | (key, value) :: rest =>
    ("\"" ++ key ++ "\": " ++ pretty indent value) :: prettyMembers indent rest

end

/-- The items of a list of numbers are written one to a row. -/
theorem prettyItems_map_ofNat (indent : Nat) (ns : List Nat) :
    prettyItems indent (ns.map ofNat) = ns.map toString := by
  induction ns with
  | nil => simp [prettyItems]
  | cons n ns ih => simp [prettyItems, pretty, ofNat, ih]

end JsonValue

end Microcode
