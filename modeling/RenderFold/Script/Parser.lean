import RenderFold.Script.Lexer
import RenderFold.Script.Arena

/-!
# Parser

Reads the tokens of a render function into an arena. Every node is added
after its parts, so a part always has a smaller index than the node that
holds it, and what was added before a fault stays in the arena.

Nesting is limited. The limit is also what the recursion runs on: a `Level`
holds the parsers for a given depth still allowed, and each level is built
from the one below it, while chains of operators, accesses and list items
are loops over the tokens that are left. A loop takes a bound on its rounds;
each round consumes a token, so the number of tokens left is bound enough.

## Main definitions

* `Parser.State`, `Parse`: The arena and the tokens that are left.
* `Parser.Level`, `Parser.levels`: Parsers by the depth that is still allowed.
* `Parser.program`: A whole render function.
* `Arena.parse`: Read a source text into an arena.
* `parseFunction`: Read a source text into an arena of its own.
-/

namespace RenderFold

namespace Script

/-- How deeply statements, expressions and negations may nest. -/
def maxNesting : Nat := 256

/-- Names that are not identifiers. -/
def keywords : List String :=
  ["function", "return", "const", "let", "if", "else", "true", "false", "null"]

/-- Whether a name is a keyword. -/
def isKeyword (name : String) : Bool := keywords.contains name

namespace Parser

/-- The arena that nodes are added to and the tokens that are left. The last
    token marks the end and is never consumed. -/
structure State where
  arena : Arena
  rest : List Token

end Parser

/-- A parser: it adds nodes and consumes tokens, also when it fails. -/
abbrev Parse := EStateM SyntaxError Parser.State

namespace Parser

/-- The kind of the next token. -/
def State.kind (s : State) : TokenKind :=
  match s.rest with
  | [] => .eof
  | token :: _ => token.kind

/-- The offset of the next token. -/
def State.offset (s : State) : Nat :=
  match s.rest with
  | [] => 0
  | token :: _ => token.offset

/-- Past the next token, unless it marks the end. -/
def State.advance (s : State) : State :=
  match s.rest with
  | _ :: next :: rest => { s with rest := next :: rest }
  | _ => s

/-- The kind of the next token. -/
def peek : Parse TokenKind := return (← get).kind

/-- Consume the next token. -/
def bump : Parse TokenKind := do
  let s ← get
  set s.advance
  return s.kind

/-- How many tokens are left. -/
def remaining : Parse Nat := return (← get).rest.length

/-- Add a node. -/
def push (node : Node Id) : Parse Id := do
  let s ← get
  let (id, arena) := s.arena.push node
  set { s with arena }
  return id

/-- Fail at the next token. -/
def fail {α : Type} (fault : Fault) : Parse α := do throw ⟨fault, (← get).offset⟩

/-- Fail because the next token is not what was expected. -/
def unexpected {α : Type} (what : String) : Parse α := do fail (.expected what (← peek))

/-- Whether the next token is the given mark. -/
def at? (mark : Punct) : Parse Bool := return (← peek) = .punct mark

/-- Whether the next token is the given keyword. -/
def atKeyword? (name : String) : Parse Bool := return (← peek) = .ident name

/-- Consume the next token if it is the given mark. -/
def eat (mark : Punct) : Parse Bool := do
  if ← at? mark then
    let _ ← bump
    return true
  else return false

/-- Consume the given mark or fail. -/
def expect (mark : Punct) (what : String) : Parse Unit := do
  unless ← eat mark do unexpected what

/-- Consume an identifier or fail. -/
def identifier : Parse String := do
  match ← peek with
  | .ident name =>
    if isKeyword name then unexpected "identifier"
    else
      let _ ← bump
      return name
  | _ => unexpected "identifier"

/-- Consume all semicolons that come next. -/
def skipSemis : Parse Unit :=
  modify fun s => { s with rest := s.rest.dropWhile (·.kind = .punct .semi) }

/-- Items up to the mark `close`, with a comma between two items and, if
    wanted, after the last. -/
def itemsTo (close : Punct) (what : String) {α : Type} (item : Parse α) : Nat → Parse (List α)
  | 0 => return []
  | fuel + 1 => do
    if ← eat close then return []
    let first ← item
    if ← eat .comma then return first :: (← itemsTo close what item fuel)
    expect close what
    return [first]

/-- Items up to the mark `close`. -/
def items (close : Punct) (what : String) {α : Type} (item : Parse α) : Parse (List α) := do
  itemsTo close what item ((← remaining) + 1)

/-- Parameter names after their opening parenthesis. -/
def params : Parse (List String) := items .rightParen "`)`" identifier

/-- Whether the tokens after an opening parenthesis are parameters and an
    arrow. -/
def closesArrow : List Token → Bool
  | ⟨.punct .rightParen, _⟩ :: ⟨.punct .arrow, _⟩ :: _ => true
  | ⟨.ident _, _⟩ :: rest => closesArrow rest
  | ⟨.punct .comma, _⟩ :: rest => closesArrow rest
  | _ => false

/-- Whether an arrow function comes next. -/
def startsArrow : List Token → Bool
  | ⟨.ident name, _⟩ :: ⟨.punct .arrow, _⟩ :: _ => !isKeyword name
  | ⟨.punct .leftParen, _⟩ :: rest => closesArrow rest
  | _ => false

/-- A property of an object literal. A lone name is short for a property
    that holds the variable of that name. -/
def property (expression : Parse Id) : Parse (String × Id) := do
  let (key, isName) ← match ← peek with
    | .ident name => pure (name, true)
    | .str text => pure (text, false)
    | _ => unexpected "property key"
  let _ ← bump
  if ← eat .colon then return (key, ← expression)
  else if isName && !isKeyword key then return (key, ← push (.ident key))
  else unexpected "`:`"

/-- A literal, a name, a list, an object or a parenthesized expression. -/
def primary (expression : Parse Id) : Parse Id := do
  match ← peek with
  | .str text =>
    let _ ← bump
    push (.str text)
  | .num value =>
    let _ ← bump
    push (.num value.toBits)
  | .ident name =>
    let node ← match name with
      | "true" => pure (.bool true)
      | "false" => pure (.bool false)
      | "null" => pure .null
      | name => if isKeyword name then fail (.keyword name) else pure (.ident name)
    let _ ← bump
    push node
  | .punct .leftParen =>
    let _ ← bump
    let inner ← expression
    expect .rightParen "`)`"
    return inner
  | .punct .leftSquare =>
    let _ ← bump
    push (.array (← items .rightSquare "closing delimiter" expression))
  | .punct .leftBrace =>
    let _ ← bump
    push (.object (← items .rightBrace "`\x7d`" (property expression)))
  | _ => unexpected "expression"

/-- Accesses and calls after an expression, from left to right. -/
def suffixes (expression : Parse Id) : Nat → Id → Parse Id
  | 0, target => return target
  | fuel + 1, target => do
    if ← eat .dot then
      match ← bump with
      | .ident name => suffixes expression fuel (← push (.member target name))
      | _ => unexpected "property name"
    else if ← eat .leftSquare then
      let position ← expression
      expect .rightSquare "`]`"
      suffixes expression fuel (← push (.index target position))
    else if ← eat .leftParen then
      let arguments ← items .rightParen "closing delimiter" expression
      suffixes expression fuel (← push (.call target arguments))
    else return target

/-- A primary expression with its accesses and calls. -/
def accessed (expression : Parse Id) : Parse Id := do
  let target ← primary expression
  suffixes expression (← remaining) target

/-- A negation, whose argument is read by `argument`, or what is negated. -/
def unaryWith (expression argument : Parse Id) : Parse Id := do
  if ← eat .bang then push (.not (← argument)) else accessed expression

/-- Further operands of a chain of operators, from left to right. -/
def chainRest (op? : TokenKind → Option BinaryOp) (operand : Parse Id) : Nat → Id → Parse Id
  | 0, left => return left
  | fuel + 1, left => do
    match op? (← peek) with
    | none => return left
    | some op =>
      let _ ← bump
      let right ← operand
      chainRest op? operand fuel (← push (.binary op left right))

/-- A chain of operators that bind equally tightly. -/
def chain (op? : TokenKind → Option BinaryOp) (operand : Parse Id) : Parse Id := do
  let left ← operand
  chainRest op? operand (← remaining) left

/-- The operator of a sum. -/
def sumOp? : TokenKind → Option BinaryOp
  | .punct .plus => some .add
  | _ => none

/-- The operators of a comparison. -/
def equalityOp? : TokenKind → Option BinaryOp
  | .punct .strictEq => some .strictEq
  | .punct .strictNotEq => some .strictNotEq
  | _ => none

/-- The operator of a conjunction. -/
def conjunctionOp? : TokenKind → Option BinaryOp
  | .punct .andAnd => some .and
  | _ => none

/-- The operator of a disjunction. -/
def disjunctionOp? : TokenKind → Option BinaryOp
  | .punct .orOr => some .or
  | _ => none

/-- Binary operators, the tightest innermost. -/
def binary (unary : Parse Id) : Parse Id :=
  chain disjunctionOp? (chain conjunctionOp? (chain equalityOp? (chain sumOp? unary)))

/-- An arrow function. -/
def arrow (expression : Parse Id) : Parse Id := do
  let names ← if ← eat .leftParen then params else pure [← identifier]
  expect .arrow "`=>`"
  if ← at? .leftBrace then fail .arrowBlock
  push (.arrow names (← expression))

/-- A conditional, or its test alone. -/
def conditional (expression unary : Parse Id) : Parse Id := do
  let test ← binary unary
  if ← eat .question then
    let consequent ← expression
    expect .colon "`:`"
    let alternate ← expression
    push (.conditional test consequent alternate)
  else return test

/-- An expression whose parts are read by the parsers of the level below. -/
def expressionWith (expression unary : Parse Id) : Parse Id := do
  if startsArrow (← get).rest then arrow expression else conditional expression unary

/-- Statements up to the closing brace. -/
def blockRest (statement : Parse Id) : Nat → Parse (List Id)
  | 0 => return []
  | fuel + 1 => do
    skipSemis
    if ← eat .rightBrace then return []
    if (← peek) = .eof then unexpected "`\x7d`"
    return (← statement) :: (← blockRest statement fuel)

/-- Statements in braces. -/
def block (statement : Parse Id) : Parse (List Id) := do
  expect .leftBrace "`\x7b`"
  blockRest statement ((← remaining) + 1)

/-- Statements in braces, or a single one. -/
def body (statement : Parse Id) : Parse (List Id) := do
  if ← at? .leftBrace then block statement else return [← statement]

/-- The rest of a declaration after its keyword. -/
def declaration (binding : Binding) (expression : Parse Id) : Parse Id := do
  let _ ← bump
  let name ← identifier
  expect .assign "`=`"
  let init ← expression
  let _ ← eat .semi
  push (.declare binding name init)

/-- A statement whose parts are read by the parsers of the level below. -/
def statementWith (statement expression : Parse Id) : Parse Id := do
  if ← atKeyword? "return" then
    let _ ← bump
    let isBare := (← at? .semi) || (← at? .rightBrace) || (← peek) = .eof
    let argument ← if isBare then pure none else some <$> expression
    let _ ← eat .semi
    push (.ret argument)
  else if ← atKeyword? "const" then declaration .const expression
  else if ← atKeyword? "let" then declaration .let expression
  else if ← atKeyword? "if" then
    let _ ← bump
    expect .leftParen "`(`"
    let test ← expression
    expect .rightParen "`)`"
    let consequent ← body statement
    if ← atKeyword? "else" then
      let _ ← bump
      let alternate ← body statement
      push (.branch test consequent (some alternate))
    else push (.branch test consequent none)
  else if ← atKeyword? "function" then fail .nestedFunction
  else
    let argument ← expression
    let _ ← eat .semi
    push (.discard argument)

/-- The parsers that may still nest to a certain depth. -/
structure Level where
  expression : Parse Id
  unary : Parse Id
  statement : Parse Id

/-- The parsers that may still nest `depth` levels deep. An expression, a
    statement and the argument of a negation each take a level. -/
def levels : Nat → Level
  | 0 =>
    { expression := fail .tooDeep
      unary := unaryWith (fail .tooDeep) (fail .tooDeep)
      statement := fail .tooDeep }
  | depth + 1 =>
    let inner := levels depth
    let expression := expressionWith inner.expression inner.unary
    { expression
      unary := unaryWith expression inner.unary
      statement := statementWith inner.statement inner.expression }

/-- The parsers at the outermost level. -/
def outermost : Level := levels maxNesting

/-- A function declaration. -/
def function : Parse Id := do
  let _ ← bump
  let name ← match ← peek with
    | .ident _ => some <$> identifier
    | _ => pure none
  expect .leftParen "`(`"
  let names ← params
  push (.function name names (← block outermost.statement))

/-- Statements up to the end. -/
def statements : Nat → Parse (List Id)
  | 0 => return []
  | fuel + 1 => do
    skipSemis
    if (← peek) = .eof then return []
    return (← outermost.statement) :: (← statements fuel)

/-- A whole render function: a function declaration, or statements that make
    up the body of a function without a name. -/
def program : Parse Id := do
  let root ← if ← atKeyword? "function" then do
      let root ← function
      let _ ← eat .semi
      pure root
    else do
      let body ← statements ((← remaining) + 1)
      push (.function none [] body)
  unless (← peek) = .eof do unexpected "end of input"
  return root

/-- Run a parser on a source text. The arena keeps what was added before a
    fault. -/
def run (parser : Parse Id) (arena : Arena) (source : String) : Except SyntaxError Id × Arena :=
  match tokenize source with
  | .error e => (.error e, arena)
  | .ok tokens =>
    match parser ⟨arena, tokens⟩ with
    | .ok id s => (.ok id, s.arena)
    | .error e s => (.error e, s.arena)

end Parser

/-- Read a render function into the arena. -/
def Arena.parse (arena : Arena) (source : String) : Except SyntaxError Id × Arena :=
  Parser.run Parser.program arena source

/-- Read one expression into the arena. What follows it is ignored. -/
def Arena.parseExpression (arena : Arena) (source : String) : Except SyntaxError Id × Arena :=
  Parser.run Parser.outermost.expression arena source

/-- Read a render function into an arena of its own. -/
def parseFunction (source : String) : Except SyntaxError (Arena × Id) :=
  match Arena.empty.parse source with
  | (.ok root, arena) => .ok (arena, root)
  | (.error e, _) => .error e

/-- A source text is accepted if the parser takes its tokens. -/
theorem parseFunction_eq_ok_iff {source : String} {arena : Arena} {root : Id} :
    parseFunction source = .ok (arena, root) ↔ ∃ tokens rest, tokenize source = .ok tokens ∧
      Parser.program ⟨.empty, tokens⟩ = .ok root ⟨arena, rest⟩ := by
  unfold parseFunction Arena.parse Parser.run
  constructor
  · intro h
    cases htokens : tokenize source with
    | error e =>
        rw [htokens] at h
        cases h
    | ok tokens =>
        rw [htokens] at h
        dsimp only at h
        cases hprogram : Parser.program ⟨.empty, tokens⟩ with
        | error e s =>
            rw [hprogram] at h
            cases h
        | ok root s =>
            rw [hprogram] at h
            cases h
            exact ⟨tokens, s.rest, rfl, hprogram⟩
  · rintro ⟨tokens, rest, htokens, hprogram⟩
    rw [htokens]
    dsimp only
    rw [hprogram]

end Script

end RenderFold
