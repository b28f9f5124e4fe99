/-!
# Tokens

The words and marks that render functions are written with, and the error
that every stage of reading one may raise.

## Main definitions

* `Punct`: Marks and operators.
* `TokenKind`, `Token`: A token and where it starts.
* `SyntaxError`: What is wrong with a source text, and where.
* `Fault`: The causes of a syntax error and their wording.
-/

namespace RenderFold

namespace Script

/-- Marks and operators. -/
inductive Punct where
  | leftParen
  | rightParen
  | leftSquare
  | rightSquare
  | leftBrace
  | rightBrace
  | comma
  | dot
  | semi
  | colon
  | question
  | arrow
  | plus
  | bang
  | assign
  | strictEq
  | strictNotEq
  | andAnd
  | orOr
  deriving DecidableEq, Inhabited

/-- The name of a mark in error messages. -/
def Punct.label : Punct → String
  | .leftParen => "LeftParen"
  | .rightParen => "RightParen"
  | .leftSquare => "LeftSquare"
  | .rightSquare => "RightSquare"
  | .leftBrace => "LeftBrace"
  | .rightBrace => "RightBrace"
  | .comma => "Comma"
  | .dot => "Dot"
  | .semi => "Semi"
  | .colon => "Colon"
  | .question => "Question"
  | .arrow => "Arrow"
  | .plus => "Plus"
  | .bang => "Bang"
  | .assign => "Assign"
  | .strictEq => "StrictEq"
  | .strictNotEq => "StrictNotEq"
  | .andAnd => "AndAnd"
  | .orOr => "OrOr"

/-- What a token is. -/
inductive TokenKind where
  | ident (name : String)
  | str (text : String)
  | num (value : Float)
  | punct (mark : Punct)
  | eof
  deriving DecidableEq, Inhabited

/-- How a token is named where another was expected. -/
def TokenKind.label : TokenKind → String
  | .ident name => "`" ++ name ++ "`"
  | .str _ => "string literal"
  | .num _ => "number"
  | .punct mark => mark.label
  | .eof => "end of input"

/-- A token and the byte offset of its first character. -/
structure Token where
  kind : TokenKind
  offset : Nat
  deriving DecidableEq, Inhabited

/-- What can be wrong with a source text. -/
inductive Fault where
  | openComment
  | badNumber
  | openString
  | lineBreak
  | badEscape
  | openTemplate
  | strayCharacter (c : Char)
  | expected (what : String) (found : TokenKind)
  | nestedFunction
  | arrowBlock
  | keyword (name : String)
  | tooDeep
  deriving DecidableEq, Inhabited

/-- The wording of a fault. -/
def Fault.message : Fault → String
  | .openComment => "unterminated comment"
  | .badNumber => "invalid number literal"
  | .openString => "unterminated string literal"
  | .lineBreak => "line break in string literal"
  | .badEscape => "invalid unicode escape"
  | .openTemplate => "unterminated template literal"
  | .strayCharacter c => "unexpected character `" ++ String.singleton c ++ "`"
  | .expected what found => "expected " ++ what ++ ", found " ++ found.label
  | .nestedFunction => "nested function declarations are not supported"
  | .arrowBlock => "arrow functions must have an expression body"
  | .keyword name => "unexpected keyword `" ++ name ++ "`"
  | .tooDeep => "nesting too deep"

/-- A fault and the byte offset where it was found. -/
structure SyntaxError where
  fault : Fault
  offset : Nat
  deriving DecidableEq, Inhabited

/-- The wording of the fault. -/
def SyntaxError.message (error : SyntaxError) : String := error.fault.message

/-- The wording of the fault and its place. -/
def SyntaxError.report (error : SyntaxError) : String :=
  error.message ++ " at offset " ++ toString error.offset

end Script

end RenderFold
