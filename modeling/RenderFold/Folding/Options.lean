import RenderFold.Data.Value

/-!
# Options

What folding is asked to do. Options are given as an object, or as a list in
a fixed order; whatever is left out keeps its default, and every option is
on by default.

## Main definitions

* `Options`: What folding is asked to do.
* `Options.ofValue?`: Read them off a value.
-/

namespace RenderFold

/-- What folding is asked to do. -/
structure Options where
  /-- Run every rewritten render function once before it is accepted. -/
  validate : Bool
  /-- Fold comments that are the same in both passes. -/
  foldComments : Bool
  /-- Drop folded components from the folded tree and move their styles up. -/
  hoistStyles : Bool
  deriving DecidableEq

namespace Options

/-- Everything on. -/
def standard : Options := ⟨true, true, true⟩

instance : Inhabited Options := ⟨standard⟩

/-- The truth value a value holds. -/
def flag? : Value → Option Bool
  | .bool b => some b
  | _ => none

/-- Set the option of the given name. Names that are not known are passed
    over. -/
def set? (options : Options) (name : String) (value : Value) : Option Options :=
  match name with
  | "validate" => return { options with validate := ← flag? value }
  | "foldComments" => return { options with foldComments := ← flag? value }
  | "hoistStyles" => return { options with hoistStyles := ← flag? value }
  | _ => some options

/-- The names in the order in which a list gives their values. -/
def names : List String := ["validate", "foldComments", "hoistStyles"]

/-- Read options off an object, or off a list that is no longer than there
    are options. Nothing else is a way to give them. -/
def ofValue? : Value → Option Options
  | .object fields => fields.foldlM (fun options field => options.set? field.1 field.2) standard
  | .array items =>
    if names.length < items.length then none
    else (names.zip items).foldlM (fun options field => options.set? field.1 field.2) standard
  | _ => none

end Options

end RenderFold
