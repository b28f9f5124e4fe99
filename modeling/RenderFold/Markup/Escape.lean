/-!
# Escaping

Text that goes into markup, as content or inside a double-quoted attribute,
has its five special characters replaced by entities.

## Main definitions

* `entity?`: The entity of a special character.
* `escape`: A text with every special character replaced.
* `needsEscape`: Whether there is anything to replace.

## Theorems

* `escape_append`: Escaping works character by character.
-/

namespace RenderFold

namespace Markup

/-- The entity that stands for a special character. -/
def entity? : Char → Option String
  | '&' => some "&amp;"
  | '<' => some "&lt;"
  | '>' => some "&gt;"
  | '"' => some "&quot;"
  | '\'' => some "&#39;"
  | _ => none

/-- A character as it is written in markup. -/
def escapeChar (c : Char) : List Char :=
  match entity? c with
  | some entity => entity.toList
  | none => [c]

/-- The text as it is written in markup. -/
def escape (text : String) : String := String.ofList (text.toList.flatMap escapeChar)

/-- Whether the text holds a special character. -/
def needsEscape (text : String) : Bool := text.toList.any fun c => (entity? c).isSome

theorem escape_append (s t : String) : escape (s ++ t) = escape s ++ escape t := by
  simp only [escape, String.toList_append, List.flatMap_append, String.ofList_append]

end Markup

end RenderFold
