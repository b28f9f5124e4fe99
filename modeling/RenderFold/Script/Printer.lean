import RenderFold.Script.Lexer
import RenderFold.Script.Quoted
import RenderFold.Script.Arena
import RenderFold.Decimal.Layout

/-!
# Printer

Writes a render function as source text. Statements take a line each and are
indented by two spaces a level; an expression stays on one line and is put
in parentheses exactly where it binds looser than its place asks for.

## Main definitions

* `Writer`: Text that grows at an indentation level.
* `Printer.expression`, `Printer.statement`: A tree in either position.
* `Arena.print`: The source text of what is below an index.
-/

namespace RenderFold

namespace Script

/-- The start of a line at an indentation level. -/
def lineBreak (level : Nat) : String :=
  "\n" ++ String.ofList (List.replicate (2 * level) ' ')

/-- Text that grows at the end, and the indentation level of new lines. -/
structure Writer where
  code : String
  level : Nat

namespace Writer

/-- Nothing written, no indentation. -/
def empty : Writer := ⟨"", 0⟩

/-- Add a text. -/
def push (writer : Writer) (text : String) : Writer := { writer with code := writer.code ++ text }

/-- Start a new line at the current level. -/
def newline (writer : Writer) : Writer := writer.push (lineBreak writer.level)

/-- One level further in. -/
def indent (writer : Writer) : Writer := { writer with level := writer.level + 1 }

/-- One level further out, if there is one. -/
def dedent (writer : Writer) : Writer := { writer with level := writer.level - 1 }

end Writer

namespace Printer

/-- The place of an arrow function's body, of items and of initial values. -/
def arrowLevel : Nat := 1

/-- How tightly a conditional binds. -/
def conditionalLevel : Nat := 2

/-- How tightly a negation binds. -/
def notLevel : Nat := 7

/-- How tightly calls and accesses bind. -/
def postfixLevel : Nat := 8

/-- How tightly everything else binds. -/
def primaryLevel : Nat := 9

/-- How tightly a node binds. -/
def precedence {α : Type} : Node α → Nat
  | .arrow .. => arrowLevel
  | .conditional .. => conditionalLevel
  | .binary op .. => op.precedence
  | .not _ => notLevel
  | .call .. | .member .. | .index .. => postfixLevel
  | _ => primaryLevel

/-- A number literal. A whole number below `10 ^ 15` is written in its digits
    without a sign on zero, any other number by its shortest digits. -/
def number (x : Float) : String :=
  match Decimal.Exact.ofFloat? x with
  | some exact =>
    if exact.isWhole && exact.isBelow (Nat.pow 10 15) then toString exact.truncate
    else Decimal.plain.write x
  | none => Decimal.plain.write x

/-- Whether a name can stand as a property key without quotes. -/
def isIdentifier (name : String) : Bool :=
  match name.toList with
  | [] => false
  | c :: rest => Lexer.isIdentStart c && rest.all Lexer.isIdentPart

/-- A property key. -/
def key (name : String) : String := if isIdentifier name then name else quote name

/-- Parameter names. -/
def params (names : List String) : String := ", ".intercalate names

/-- Whether a tree is an object literal, which would read as a block right
    after an arrow. -/
def isObject : Tree → Bool
  | .mk (.object _) => true
  | _ => false

mutual

/-- A tree in the place of an expression that has to bind at least as tightly
    as `tightness`. -/
def expression (level tightness : Nat) : Tree → String
  | .mk node =>
    if precedence node < tightness then "(" ++ bare level node ++ ")" else bare level node
termination_by structural t => t

/-- A tree in the place of a statement. -/
def statement (level : Nat) : Tree → String
  | .mk node => if node.isStatement then bare level node else bare level node ++ ";"
termination_by structural t => t

/-- A node without parentheses around it. -/
def bare (level : Nat) : Node Tree → String
  | .function name names body =>
    "function " ++ name.getD "" ++ "(" ++ params names ++ ") \x7b" ++ lines (level + 1) body
      ++ lineBreak level ++ "\x7d"
  | .ret none => "return;"
  | .ret (some argument) => "return " ++ expression level 0 argument ++ ";"
  | .declare binding name init =>
    binding.keyword ++ " " ++ name ++ " = " ++ expression level arrowLevel init ++ ";"
  | .branch test consequent none =>
    "if (" ++ expression level 0 test ++ ") \x7b" ++ lines (level + 1) consequent
      ++ lineBreak level ++ "\x7d"
  | .branch test consequent (some alternate) =>
    "if (" ++ expression level 0 test ++ ") \x7b" ++ lines (level + 1) consequent
      ++ lineBreak level ++ "\x7d else \x7b" ++ lines (level + 1) alternate
      ++ lineBreak level ++ "\x7d"
  | .discard argument => expression level 0 argument ++ ";"
  | .str text => quote text
  | .num bits => number (Float.ofBits bits)
  | .bool value => if value then "true" else "false"
  | .null => "null"
  | .hole => "null"
  | .ident name => name
  | .member target property => expression level postfixLevel target ++ "." ++ property
  | .index target position =>
    expression level postfixLevel target ++ "[" ++ expression level 0 position ++ "]"
  | .call callee arguments =>
    expression level postfixLevel callee ++ "(" ++ items level arguments ++ ")"
  | .array elements => "[" ++ items level elements ++ "]"
  | .object properties => "\x7b" ++ entries level properties ++ "\x7d"
  | .not argument => "!" ++ expression level notLevel argument
  | .binary op left right =>
    expression level op.precedence left ++ " " ++ op.mark ++ " "
      ++ expression level (op.precedence + 1) right
  | .conditional test consequent alternate =>
    expression level (conditionalLevel + 1) test ++ " ? "
      ++ expression level arrowLevel consequent ++ " : "
      ++ expression level arrowLevel alternate
  | .arrow names body =>
    "(" ++ params names ++ ") => "
      ++ (if isObject body then "(" ++ expression level 0 body ++ ")"
        else expression level arrowLevel body)
termination_by structural node => node

/-- Items separated by commas. -/
def items (level : Nat) : List Tree → String
  | [] => ""
  | item :: rest =>
    expression level arrowLevel item ++ (if rest.isEmpty then "" else ", ") ++ items level rest
termination_by structural ts => ts

/-- Properties separated by commas. -/
def entries (level : Nat) : List (String × Tree) → String
  | [] => ""
  | (name, value) :: rest =>
    key name ++ ": " ++ expression level arrowLevel value
      ++ (if rest.isEmpty then "" else ", ") ++ entries level rest
termination_by structural properties => properties

/-- Statements, a line each. -/
def lines (level : Nat) : List Tree → String
  | [] => ""
  | t :: rest => lineBreak level ++ statement level t ++ lines level rest
termination_by structural ts => ts

end

end Printer

namespace Tree

/-- The source text of a tree. A statement ends its line. -/
def print (t : Tree) : String :=
  if t.node.isStatement then Printer.statement 0 t ++ "\n" else Printer.expression 0 0 t

end Tree

namespace Arena

/-- The source text of what is below an index. -/
def print (arena : Arena) (id : Id) : String := (arena.tree id).print

/-- What is below an index, in the place of an expression that has to bind at
    least as tightly as `tightness`. -/
def printExpression (arena : Arena) (id : Id) (tightness : Nat) : String :=
  Printer.expression 0 tightness (arena.tree id)

end Arena

end Script

end RenderFold
