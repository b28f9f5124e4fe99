import RenderFold.Script.Token
import RenderFold.Text.Digits

/-!
# Lexer

Cuts a source text into tokens. Every reader below takes the characters that
are left together with the byte offset of the first of them, and hands back
what is left after it with the offset moved along, so that an offset is
always the byte length of what was read.

Comments and blanks between tokens are skipped. Quoted texts know a handful
of escapes; backtick texts are taken verbatim except for an escaped backtick
or backslash.

## Main definitions

* `Lexer.skipTrivia`: Past blanks and comments.
* `Lexer.readToken`: One token.
* `tokenize`: All tokens of a text, with an end mark last.

## Theorems

* `Lexer.readQuoted_plain`, `Lexer.readQuoted_escape`: One character of a
  quoted text.
* `Lexer.skipTrivia_length`: Skipping never adds characters.
* `Lexer.readToken_length`: A token takes at least one character.
* `Lexer.tokensFrom_eq`: One round of the loop.
-/

namespace RenderFold

namespace Script

namespace Lexer

/-- A value that was read, the offset after it and the characters after it. -/
structure Read (α : Type) where
  value : α
  offset : Nat
  rest : List Char

/-- What the characters being skipped belong to. A block comment remembers
    where it started. -/
inductive Trivia where
  | blank
  | line
  | block (start : Nat)

/-- Skip blanks and comments. -/
def skipTrivia (offset : Nat) : Trivia → List Char → Except SyntaxError (Read Unit)
  | .blank, '/' :: '/' :: rest => skipTrivia (offset + 2) .line rest
  | .blank, '/' :: '*' :: rest => skipTrivia (offset + 2) (.block offset) rest
  | .blank, c :: rest =>
    if c = ' ' || c = '\t' || c = '\n' || c = '\r' then skipTrivia (offset + 1) .blank rest
    else .ok ⟨(), offset, c :: rest⟩
  | .line, '\n' :: rest => skipTrivia (offset + 1) .blank rest
  | .line, c :: rest => skipTrivia (offset + c.utf8Size) .line rest
  | .block _, '*' :: '/' :: rest => skipTrivia (offset + 2) .blank rest
  | .block start, c :: rest => skipTrivia (offset + c.utf8Size) (.block start) rest
  | .block start, [] => .error ⟨.openComment, start⟩
  | _, [] => .ok ⟨(), offset, []⟩

/-- Letters, the underscore and the dollar sign start an identifier. -/
def isIdentStart (c : Char) : Bool := c.isAlpha || c = '_' || c = '$'

/-- Digits may follow in an identifier. -/
def isIdentPart (c : Char) : Bool := isIdentStart c || c.isDigit

/-- The code that the four characters after `\u` name. The first of them may
    be a plus sign. -/
def escapeCode? (a b c d : Char) : Option Nat := do
  let a ← if a = '+' then some 0 else Text.hexDigit? a
  let b ← Text.hexDigit? b
  let c ← Text.hexDigit? c
  let d ← Text.hexDigit? d
  return ((a * 16 + b) * 16 + c) * 16 + d

/-- The character with a given code, if the code is not a surrogate. -/
def scalar? (code : Nat) : Option Char :=
  if code < 0xD800 || (0xDFFF < code && code < 0x110000) then some (Char.ofNat code) else none

/-- What a character after a backslash stands for. -/
def escaped (c : Char) : Char :=
  match c with
  | 'n' => '\n'
  | 'r' => '\r'
  | 't' => '\t'
  | '0' => '\x00'
  | c => c

/-- The rest of a quoted text; `start` is where its opening quote stood and
    `out` what was read, reversed. -/
def readQuoted (start : Nat) (quote : Char) (out : List Char) (offset : Nat) :
    List Char → Except SyntaxError (Read TokenKind)
  | [] => .error ⟨.openString, start⟩
  | '\\' :: 'u' :: a :: b :: c :: d :: rest =>
    match escapeCode? a b c d with
    | none => .error ⟨.badEscape, offset + 2⟩
    | some code =>
      match scalar? code with
      | none => .error ⟨.badEscape, offset + 6⟩
      | some char => readQuoted start quote (char :: out) (offset + 6) rest
  | '\\' :: 'u' :: _ => .error ⟨.badEscape, offset + 2⟩
  | '\\' :: c :: rest =>
    readQuoted start quote (escaped c :: out) (offset + 1 + c.utf8Size) rest
  | ['\\'] => .error ⟨.openString, start⟩
  | c :: rest =>
    if c = quote then .ok ⟨.str (String.ofList out.reverse), offset + 1, rest⟩
    else if c = '\n' then .error ⟨.lineBreak, start⟩
    else readQuoted start quote (c :: out) (offset + c.utf8Size) rest

/-- A character that is no backslash starts no escape. -/
theorem readQuoted_plain {start offset : Nat} {quote c : Char} {out text : List Char}
    (hc : c ≠ '\\') : readQuoted start quote out offset (c :: text) =
      if c = quote then .ok ⟨.str (String.ofList out.reverse), offset + 1, text⟩
      else if c = '\n' then .error ⟨.lineBreak, start⟩
      else readQuoted start quote (c :: out) (offset + c.utf8Size) text := by
  rw [readQuoted]
  · exact fun _ _ _ _ _ h => absurd h hc
  · exact fun _ h => absurd h hc
  · exact fun _ _ h => absurd h hc
  · exact fun h => absurd h hc

/-- A character that begins no escape, whatever comes after it, is no
    backslash. -/
theorem ne_backslash {c : Char} {text : List Char}
    (hescape : ∀ c' rest, c = '\\' → text = c' :: rest → False)
    (hlone : c = '\\' → text = [] → False) : c ≠ '\\' := by
  intro hc
  cases text with
  | nil => exact hlone hc rfl
  | cons c' rest => exact hescape c' rest hc rfl

theorem readQuoted_escape {start offset : Nat} {quote c : Char} {out text : List Char}
    (hc : c ≠ 'u') : readQuoted start quote out offset ('\\' :: c :: text) =
      readQuoted start quote (escaped c :: out) (offset + 1 + c.utf8Size) text := by
  rw [readQuoted]
  · exact fun _ _ _ _ _ h => absurd h hc
  · exact hc

/-- The rest of a backtick text; `start` is where its opening backtick stood
    and `out` what was read, reversed. -/
def readTemplate (start : Nat) (out : List Char) (offset : Nat) :
    List Char → Except SyntaxError (Read TokenKind)
  | [] => .error ⟨.openTemplate, start⟩
  | '\x60' :: rest => .ok ⟨.str (String.ofList out.reverse), offset + 1, rest⟩
  | '\\' :: '\x60' :: rest => readTemplate start ('\x60' :: out) (offset + 2) rest
  | '\\' :: '\\' :: rest => readTemplate start ('\\' :: out) (offset + 2) rest
  | c :: rest => readTemplate start (c :: out) (offset + c.utf8Size) rest

/-- The double that a run of digits and points stands for, if it holds at
    most one point. -/
def numberValue? (text : List Char) : Option Float :=
  let digits := text.takeWhile (· ≠ '.')
  let fraction := (text.dropWhile (· ≠ '.')).drop 1
  if fraction.contains '.' then none
  else some (Float.ofScientific (Text.decimalValue (digits ++ fraction)) true fraction.length)

/-- Digits and points run on in a number. -/
def isNumberPart (c : Char) : Bool := c.isDigit || c = '.'

/-- A number: the longest run of digits and points. -/
def readNumber (start : Nat) (text : List Char) : Except SyntaxError (Read TokenKind) :=
  let run := text.takeWhile isNumberPart
  match numberValue? run with
  | some value => .ok ⟨.num value, start + run.length, text.dropWhile isNumberPart⟩
  | none => .error ⟨.badNumber, start⟩

/-- An identifier: the longest run of identifier characters. -/
def readIdent (start : Nat) (text : List Char) : Read TokenKind :=
  let run := text.takeWhile isIdentPart
  ⟨.ident (String.ofList run), start + run.length, text.dropWhile isIdentPart⟩

/-- A mark or operator. -/
def readPunct (start : Nat) (c : Char) (rest : List Char) :
    Except SyntaxError (Read TokenKind) :=
  match c, rest with
  | '(', rest => .ok ⟨.punct .leftParen, start + 1, rest⟩
  | ')', rest => .ok ⟨.punct .rightParen, start + 1, rest⟩
  | '[', rest => .ok ⟨.punct .leftSquare, start + 1, rest⟩
  | ']', rest => .ok ⟨.punct .rightSquare, start + 1, rest⟩
  | '\x7b', rest => .ok ⟨.punct .leftBrace, start + 1, rest⟩
  | '\x7d', rest => .ok ⟨.punct .rightBrace, start + 1, rest⟩
  | ',', rest => .ok ⟨.punct .comma, start + 1, rest⟩
  | '.', rest => .ok ⟨.punct .dot, start + 1, rest⟩
  | ';', rest => .ok ⟨.punct .semi, start + 1, rest⟩
  | ':', rest => .ok ⟨.punct .colon, start + 1, rest⟩
  | '?', rest => .ok ⟨.punct .question, start + 1, rest⟩
  | '+', rest => .ok ⟨.punct .plus, start + 1, rest⟩
  | '=', '>' :: rest => .ok ⟨.punct .arrow, start + 2, rest⟩
  | '=', '=' :: '=' :: rest => .ok ⟨.punct .strictEq, start + 3, rest⟩
  | '=', rest => .ok ⟨.punct .assign, start + 1, rest⟩
  | '!', '=' :: '=' :: rest => .ok ⟨.punct .strictNotEq, start + 3, rest⟩
  | '!', rest => .ok ⟨.punct .bang, start + 1, rest⟩
  | '&', '&' :: rest => .ok ⟨.punct .andAnd, start + 2, rest⟩
  | '|', '|' :: rest => .ok ⟨.punct .orOr, start + 2, rest⟩
  | c, _ => .error ⟨.strayCharacter c, start⟩

/-- The token that starts with `c`. -/
def readToken (start : Nat) (c : Char) (rest : List Char) : Except SyntaxError (Read TokenKind) :=
  if c = '"' || c = '\'' then readQuoted start c [] (start + 1) rest
  else if c = '\x60' then readTemplate start [] (start + 1) rest
  else if c.isDigit then readNumber start (c :: rest)
  else if isIdentStart c then .ok (readIdent start (c :: rest))
  else readPunct start c rest

theorem skipTrivia_length {offset : Nat} {trivia : Trivia} {text : List Char} {read : Read Unit}
    (h : skipTrivia offset trivia text = .ok read) : read.rest.length ≤ text.length := by
  fun_induction skipTrivia offset trivia text <;> simp_all <;> grind

theorem readQuoted_length {start : Nat} {quote : Char} {out : List Char} {offset : Nat}
    {text : List Char} {read : Read TokenKind}
    (h : readQuoted start quote out offset text = .ok read) :
    read.rest.length < text.length := by
  fun_induction readQuoted start quote out offset text <;> simp_all <;> grind

theorem readTemplate_length {start : Nat} {out : List Char} {offset : Nat}
    {text : List Char} {read : Read TokenKind}
    (h : readTemplate start out offset text = .ok read) :
    read.rest.length < text.length := by
  fun_induction readTemplate start out offset text <;> simp_all <;> grind

theorem length_dropWhile_cons_le {p : Char → Bool} {c : Char} (h : p c = true)
    (rest : List Char) : ((c :: rest).dropWhile p).length ≤ rest.length := by
  rw [List.dropWhile_cons_of_pos h]
  exact (List.dropWhile_suffix p).length_le

theorem readPunct_length {start : Nat} {c : Char} {rest : List Char} {read : Read TokenKind}
    (h : readPunct start c rest = .ok read) : read.rest.length ≤ rest.length := by
  unfold readPunct at h
  split at h <;> cases h <;> simp only [List.length_cons] <;> omega

theorem readToken_length {start : Nat} {c : Char} {rest : List Char} {read : Read TokenKind}
    (h : readToken start c rest = .ok read) : read.rest.length ≤ rest.length := by
  unfold readToken at h
  split at h
  · exact Nat.le_of_lt (readQuoted_length h)
  split at h
  · exact Nat.le_of_lt (readTemplate_length h)
  split at h
  · next hdigit =>
      simp only [readNumber] at h
      split at h <;> cases h
      exact length_dropWhile_cons_le (by simp only [isNumberPart, hdigit, Bool.true_or]) rest
  split at h
  · next hident =>
      cases h
      exact length_dropWhile_cons_le (by simp only [isIdentPart, hident, Bool.true_or]) rest
  · exact readPunct_length h

/-- The tokens of the characters `text`, the first of which stands at
    `offset`. -/
def tokensFrom (offset : Nat) (text : List Char) : Except SyntaxError (List Token) :=
  match _hskip : skipTrivia offset .blank text with
  | .error e => .error e
  | .ok ⟨_, start, []⟩ => .ok [⟨.eof, start⟩]
  | .ok ⟨_, start, c :: rest⟩ =>
    match _hread : readToken start c rest with
    | .error e => .error e
    | .ok read =>
      match tokensFrom read.offset read.rest with
      | .error e => .error e
      | .ok tokens => .ok (⟨read.value, start⟩ :: tokens)
termination_by text.length
decreasing_by
  have hle := skipTrivia_length _hskip
  have := readToken_length _hread
  simp only [List.length_cons] at hle
  omega

/-- The tokens of a text, without the proof that the loop ends. -/
theorem tokensFrom_eq (offset : Nat) (text : List Char) : tokensFrom offset text =
    match skipTrivia offset .blank text with
    | .error e => .error e
    | .ok ⟨_, start, []⟩ => .ok [⟨.eof, start⟩]
    | .ok ⟨_, start, c :: rest⟩ =>
      match readToken start c rest with
      | .error e => .error e
      | .ok read =>
        match tokensFrom read.offset read.rest with
        | .error e => .error e
        | .ok tokens => .ok (⟨read.value, start⟩ :: tokens) := by
  rw [tokensFrom]
  split
  · next hskip => rw [hskip]
  · next hskip => rw [hskip]
  · next hskip =>
      rw [hskip]
      dsimp only
      split
      · next hread => rw [hread]
      · next hread => rw [hread]

end Lexer

/-- The tokens of a source text. The last one marks the end. -/
def tokenize (source : String) : Except SyntaxError (List Token) :=
  Lexer.tokensFrom 0 source.toList

end Script

end RenderFold
