import Microcode.Json.Token
import Microcode.Json.Value

/-!
# Microcode.Json.Reader

Reading a JSON value from its tokens.

The reader keeps the lists and objects it is inside of on a stack, and says what may come next.  It
takes one token at a time, so the depth of a value does not matter.
-/

namespace Microcode.JsonValue

/-- A list or an object that is not yet closed.  What is read of it so far is kept in reverse. -/
inductive Frame where
  | list (items : List JsonValue)
  | object (members : List (String × JsonValue)) (key : String)

/-- What may come next. -/
inductive Phase where
  /-- A value. -/
  | value
  /-- A value, or the end of the list just opened. -/
  | firstItem
  /-- A key, or the end of the object just opened. -/
  | firstKey
  /-- A key, after the members read so far. -/
  | key (members : List (String × JsonValue))
  /-- The colon after a key. -/
  | colon (members : List (String × JsonValue)) (key : String)
  /-- A comma, or the end of the innermost list or object. -/
  | next (last : JsonValue)

/-- The state of the reader.  The stack holds the innermost list or object first. -/
structure Reader where
  phase : Phase := .value
  frames : List Frame := []

namespace Reader

/-- Takes a value that stands alone. -/
def takeScalar (r : Reader) (v : JsonValue) : Option Reader :=
  match r.phase with
  | .value => some { r with phase := .next v }
  | .firstItem => some { r with phase := .next v }
  | _ => none

/-- Takes a string, which is a value or a key. -/
def takeString (r : Reader) (raw : String) : Option Reader :=
  match r.phase with
  | .firstKey => some { r with phase := .colon [] raw }
  | .key members => some { r with phase := .colon members raw }
  | _ => r.takeScalar (.string raw)

def openList (r : Reader) : Option Reader :=
  match r.phase with
  | .value => some ⟨.firstItem, .list [] :: r.frames⟩
  | .firstItem => some ⟨.firstItem, .list [] :: r.frames⟩
  | _ => none

def openObject (r : Reader) : Option Reader :=
  match r.phase with
  | .value => some { r with phase := .firstKey }
  | .firstItem => some { r with phase := .firstKey }
  | _ => none

def takeColon (r : Reader) : Option Reader :=
  match r.phase with
  | .colon members key => some ⟨.value, .object members key :: r.frames⟩
  | _ => none

def takeComma (r : Reader) : Option Reader :=
  match r.phase, r.frames with
  | .next last, .list items :: frames => some ⟨.value, .list (last :: items) :: frames⟩
  | .next last, .object members key :: frames => some ⟨.key ((key, last) :: members), frames⟩
  | _, _ => none

def closeList (r : Reader) : Option Reader :=
  match r.phase, r.frames with
  | .firstItem, .list _ :: frames => some ⟨.next (.list []), frames⟩
  | .next last, .list items :: frames => some ⟨.next (.list (last :: items).reverse), frames⟩
  | _, _ => none

def closeObject (r : Reader) : Option Reader :=
  match r.phase, r.frames with
  | .firstKey, frames => some ⟨.next (.object []), frames⟩
  | .next last, .object members key :: frames =>
    some ⟨.next (.object ((key, last) :: members).reverse), frames⟩
  | _, _ => none

/-- Takes a token. -/
def take (r : Reader) : JsonToken → Option Reader
  | .openList => r.openList
  | .closeList => r.closeList
  | .openObject => r.openObject
  | .closeObject => r.closeObject
  | .comma => r.takeComma
  | .colon => r.takeColon
  | .null => r.takeScalar .null
  | .bool b => r.takeScalar (.bool b)
  | .number text => r.takeScalar (.number text)
  | .string raw => r.takeString raw

end Reader

/-- The value that a text stands for. -/
def parse? (text : String) : Option JsonValue := do
  let tokens ← JsonToken.scan [] text.toList
  match ← tokens.foldlM Reader.take {} with
  | ⟨.next v, []⟩ => some v
  | _ => none

/-- The string that a string value stands for. -/
def unescape? (raw : String) : Option String :=
  (JsonToken.unescape? raw.toList).map String.ofList

end Microcode.JsonValue
