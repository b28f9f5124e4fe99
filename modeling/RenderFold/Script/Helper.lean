/-!
# Render Helpers

The functions a render function may call. They are recognised by name, and
whether a call constructs a node can be read off the name alone, which is
what lets the folding passes work on the expression without running it.

## Main definitions

* `Helper`: The seven helpers.
* `Helper.name`, `Helper.ofName?`: Their names.
* `Helper.constructsNode`: Which of them construct a node.

## Theorems

* `Helper.ofName?_name`: Names tell the helpers apart.
-/

namespace RenderFold

/-- A function that render functions may call. -/
inductive Helper where
  /-- `_c(tag, data?, children?)`: an element or a component. -/
  | element
  /-- `_v(text)`: a text. -/
  | text
  /-- `_e(text?)`: a comment. -/
  | comment
  /-- `_s(value)`: the display text of a value. -/
  | display
  /-- `_l(list, callback)`: the callback's result for every item. -/
  | list
  /-- `_ssrNode(open, close?, children?)`: markup around children. -/
  | markup
  /-- `_ssrEscape(value)`: the display text of a value, escaped. -/
  | escape
  deriving DecidableEq, Inhabited

namespace Helper

/-- Every helper, in a fixed order. -/
def all : List Helper := [element, text, comment, display, list, markup, escape]

/-- The name the helper is called by. -/
def name : Helper → String
  | element => "_c"
  | text => "_v"
  | comment => "_e"
  | display => "_s"
  | list => "_l"
  | markup => "_ssrNode"
  | escape => "_ssrEscape"

/-- The helper with the given name. -/
def ofName? (name : String) : Option Helper := all.find? fun helper => helper.name == name

/-- Whether calling the helper constructs a node. -/
def constructsNode : Helper → Bool
  | element | text | comment | markup => true
  | display | list | escape => false

theorem ofName?_name (helper : Helper) : ofName? helper.name = some helper := by
  cases helper <;> decide

end Helper

end RenderFold
