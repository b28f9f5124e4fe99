import RenderFold.Data.Value
import RenderFold.Script.Arena
import RenderFold.Text.Digits

/-!
# Render Functions as Data

A node as a list: the name of its shape and then its parts, in source order.
Numbers are given by their bits, so none of them changes on the way. A list
that refers to a node by a path stands for the node at that path, which is
how one node comes to be part of several others.

## Main definitions

* `Node.toValue`, `Node.ofValue?`: One layer, as a list and from one.
* `Arena.toValue`: What is below an index.
* `Arena.build`: Adding nodes.
-/

namespace RenderFold

namespace Script

/-- The bits of a number in hexadecimal digits. -/
def bitsText (bits : UInt64) : String := Text.hexPadded 16 bits.toNat

/-- The bits that hexadecimal digits stand for. -/
def ofBitsText? (text : String) : Option UInt64 := do
  let digits ← text.toList.mapM Text.hexDigit?
  return (digits.foldl (fun bits digit => bits * 16 + digit) 0).toUInt64

/-- The operator with the given mark. -/
def BinaryOp.ofMark? (mark : String) : Option BinaryOp :=
  [add, strictEq, strictNotEq, and, or].find? fun op => op.mark == mark

namespace Node

/-- A list of names. -/
def namesValue (names : List String) : Value := .array (names.map .str)

/-- A node whose parts are values, as a list. -/
def toValue (node : Node Value) : Value :=
  .array (match node with
    | function name params body =>
      [.str "fn", (name.map .str).getD .null, namesValue params, .array body]
    | ret argument => [.str "return", argument.getD .null]
    | declare binding name init => [.str binding.keyword, .str name, init]
    | branch test consequent alternate =>
      [.str "if", test, .array consequent, (alternate.map .array).getD .null]
    | discard expression => [.str "expr", expression]
    | str text => [.str "str", .str text]
    | num bits => [.str "num", .str (bitsText bits)]
    | bool value => [.str "bool", .bool value]
    | null => [.str "null"]
    | ident name => [.str "id", .str name]
    | member target property => [.str "member", target, .str property]
    | index target position => [.str "index", target, position]
    | call callee arguments => [.str "call", callee, .array arguments]
    | array elements => [.str "array", .array elements]
    | object properties =>
      [.str "object", .array (properties.map fun (key, value) => .array [.str key, value])]
    | not argument => [.str "not", argument]
    | binary op left right => [.str "bin", .str op.mark, left, right]
    | conditional test consequent alternate => [.str "cond", test, consequent, alternate]
    | arrow params body => [.str "arrow", namesValue params, body]
    | hole => [.str "placeholder"])

/-- A property from a pair. -/
def propertyOf? : Value → Option (String × Value)
  | .array [.str key, value] => some (key, value)
  | _ => none

/-- A node whose parts are values, from a list. -/
def ofValue? (value : Value) : Option (Node Value) :=
  match value with
  | .array [.str "fn", .null, .array params, .array body] =>
    return function none (← params.mapM Value.str?) body
  | .array [.str "fn", .str name, .array params, .array body] =>
    return function (some name) (← params.mapM Value.str?) body
  | .array [.str "return", .null] => some (ret none)
  | .array [.str "return", argument] => some (ret (some argument))
  | .array [.str "const", .str name, init] => some (declare .const name init)
  | .array [.str "let", .str name, init] => some (declare .let name init)
  | .array [.str "if", test, .array consequent, .null] => some (branch test consequent none)
  | .array [.str "if", test, .array consequent, .array alternate] =>
    some (branch test consequent (some alternate))
  | .array [.str "expr", expression] => some (discard expression)
  | .array [.str "str", .str text] => some (str text)
  | .array [.str "num", .str bits] => num <$> ofBitsText? bits
  | .array [.str "bool", .bool value] => some (bool value)
  | .array [.str "null"] => some null
  | .array [.str "id", .str name] => some (ident name)
  | .array [.str "member", target, .str property] => some (member target property)
  | .array [.str "index", target, position] => some (index target position)
  | .array [.str "call", callee, .array arguments] => some (call callee arguments)
  | .array [.str "array", .array elements] => some (array elements)
  | .array [.str "object", .array properties] => object <$> properties.mapM propertyOf?
  | .array [.str "not", argument] => some (not argument)
  | .array [.str "bin", .str mark, left, right] =>
    return binary (← BinaryOp.ofMark? mark) left right
  | .array [.str "cond", test, consequent, alternate] =>
    some (conditional test consequent alternate)
  | .array [.str "arrow", .array params, body] => return arrow (← params.mapM Value.str?) body
  | .array [.str "placeholder"] => some hole
  | _ => none

end Node

namespace Arena

/-- What is below an index, cut off at depth `depth`. -/
def toValueTo (arena : Arena) : Nat → Id → Value
  | 0, _ => Node.toValue .hole
  | depth + 1, id => Node.toValue ((arena.get id).map (arena.toValueTo depth))

/-- What is below an index. -/
def toValue (arena : Arena) (id : Id) : Value := arena.toValueTo arena.size id

/-- Add nodes that nest at most `depth` levels deep, each after its parts.
    `find` gives the node at a path. -/
def buildTo (find : String → Option Id) : Nat → Value → StateT Arena Option Id
  | 0, _ => failure
  | depth + 1, value =>
    match value with
    | .array [.str "ref", .str path] => liftM (find path)
    | value => do
      let node ← liftM (Node.ofValue? value)
      let node ← node.mapM (buildTo find depth)
      modifyGet fun arena => arena.push node

/-- How deep nodes given as data may nest. -/
def maxDataDepth : Nat := 1048576

/-- Add nodes given as data. -/
def build (arena : Arena) (find : String → Option Id) (value : Value) : Option (Id × Arena) :=
  (buildTo find maxDataDepth value).run arena

end Arena

end Script

end RenderFold
