import RenderFold.Error
import RenderFold.Data.Value

/-!
# Reading Data

A manifest is data, and reading it means looking for fields and expecting
values of a certain kind in them. A field that is missing counts as null,
and null stands for the default wherever there is one.

## Main definitions

* `ManifestError`, `Reading`: What can be wrong with a manifest.
* `Reading.field`: The value of a field.
* `Reading.text`, `Reading.nat`, `Reading.flag`, `Reading.list`,
  `Reading.fields`: Values of a certain kind.
* `Reading.optional`, `Reading.orElse`: Values that may be missing.
-/

namespace RenderFold

/-- What can be wrong with a manifest: it is not one, or what it describes is
    not fit for rendering. -/
inductive ManifestError where
  | malformed (expected : String)
  | render (error : RenderError)
  deriving DecidableEq, Inhabited

/-- Something read off a manifest. -/
abbrev Reading := Except ManifestError

namespace Reading

variable {α : Type}

/-- Fail because something else was expected. -/
def expected (what : String) : Reading α := .error (.malformed what)

/-- The result of something that concerns rendering. -/
def ofRender : Except RenderError α → Reading α
  | .ok a => .ok a
  | .error e => .error (.render e)

/-- Something that has to be there. -/
def require (what : String) : Option α → Reading α
  | some a => .ok a
  | none => expected what

/-- The value of a field, null if it is missing. -/
def field (value : Value) (key : String) : Value := (value.field? key).getD .null

/-- A text. -/
def text (value : Value) : Reading String := require "a text" value.str?

/-- A natural number. -/
def nat (value : Value) : Reading Nat := require "a natural number" value.index?

/-- A truth value. -/
def flag : Value → Reading Bool
  | .bool b => .ok b
  | _ => expected "a truth value"

/-- A list, empty if it is missing. -/
def list : Value → Reading (List Value)
  | .array items => .ok items
  | .null => .ok []
  | _ => expected "a list"

/-- Fields, none if they are missing. -/
def fields : Value → Reading (Fields Value)
  | .object fields => .ok fields
  | .null => .ok []
  | _ => expected "an object"

/-- Something that may be missing. -/
def optional (read : Value → Reading α) : Value → Reading (Option α)
  | .null => .ok none
  | value => some <$> read value

/-- Something with a default. -/
def orElse (otherwise : α) (read : Value → Reading α) : Value → Reading α
  | .null => .ok otherwise
  | value => read value

/-- The items of a list. -/
def listOf (read : Value → Reading α) (value : Value) : Reading (List α) := do
  (← list value).mapM read

/-- The values of fields. -/
def fieldsOf (read : Value → Reading α) (value : Value) : Reading (Fields α) := do
  (← fields value).mapM fun field => return (field.1, ← read field.2)

end Reading

end RenderFold
