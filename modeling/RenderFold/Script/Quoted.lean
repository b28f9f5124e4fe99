import RenderFold.Text.Digits

/-!
# Quoted Texts

How a text is written as a literal: in double quotes, with quotes,
backslashes, line breaks and control characters escaped. The two Unicode
line separators are escaped as well, so that a literal never spans lines.

## Main definitions

* `quoteChar`: A character inside a literal.
* `quote`: A text as a literal.
-/

namespace RenderFold

namespace Script

/-- A character inside a double-quoted literal. -/
def quoteChar (c : Char) : List Char :=
  if c = '"' then ['\\', '"']
  else if c = '\\' then ['\\', '\\']
  else if c = '\n' then ['\\', 'n']
  else if c = '\r' then ['\\', 'r']
  else if c = '\t' then ['\\', 't']
  else if c.toNat < 0x20 || c.toNat = 0x2028 || c.toNat = 0x2029 then
    '\\' :: 'u' :: (Text.hexPadded 4 c.toNat).toList
  else [c]

/-- A text as a double-quoted literal. -/
def quote (text : String) : String :=
  String.ofList ('"' :: (text.toList.flatMap quoteChar ++ ['"']))

end Script

end RenderFold
