/-!
# Tags

What the name of a tag decides: whether the element has content and a
closing tag, and whether its text is written verbatim.

## Main definitions

* `isVoid`: Elements without content.
* `isRawText`: Elements whose text is not escaped.
* `endTag?`: The closing tag.
-/

namespace RenderFold

namespace Markup

/-- Elements that never have children or a closing tag. -/
def voidTags : List String :=
  ["area", "base", "br", "col", "embed", "hr", "img", "input", "keygen", "link", "meta",
    "param", "source", "track", "wbr"]

/-- Elements whose text is written verbatim. -/
def rawTextTags : List String := ["script", "style"]

/-- Whether the element has neither children nor a closing tag. -/
def isVoid (tag : String) : Bool := voidTags.contains tag

/-- Whether text in the element is written verbatim. -/
def isRawText (tag : String) : Bool := rawTextTags.contains tag

/-- The closing tag of an element that has one. -/
def endTag? (tag : String) : Option String :=
  if isVoid tag then none else some ("</" ++ tag ++ ">")

end Markup

end RenderFold
