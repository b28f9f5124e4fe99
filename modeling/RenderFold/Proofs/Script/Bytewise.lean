import RenderFold.Proofs.Script.Bytes
import RenderFold.Proofs.Script.Positions
import Mathlib.Data.List.Find

/-!
# Reading Bytes

Whoever cuts a source text into tokens byte by byte may cut through a
character. Here the lexer is written down once more in this way: it looks at
single bytes, moves on by numbers of bytes, and whenever it takes a slice of
the text, there is none unless the slice begins and ends between two
characters.

No such slice is ever missing, and the tokens are those of the characters:
what is passed over byte by byte is passed over as a whole.

A loop takes a bound on its rounds; each round consumes a byte, so the number
of bytes left is bound enough.

## Main definitions

* `Bytewise.slice`, `Bytewise.sliceTo`: Slices of a text.
* `Bytewise.tokenize`: The tokens of a text, read by its bytes.
* `Positions`: Where the tokens of a source text stand.

## Theorems

* `skipTrivia_bytes`, `readToken_bytes`, `tokensFrom_bytes`: The readers.
* `tokenize_positions`: No slice is missing, and tokens stand where they should.
-/

namespace RenderFold

namespace Script

namespace Bytewise

open Lexer (isNumberPart isIdentPart isIdentStart numberValue? escapeCode? scalar? escaped)

/-- What comes of reading bytes. It is nothing at all if a slice is taken that
    begins or ends inside a character. -/
abbrev Cut := ExceptT SyntaxError Option

/-- Something that was read, the offset after it and the bytes after it. -/
structure Piece (α : Type) where
  value : α
  offset : Nat
  rest : List UInt8

/-- No slice, because it would cut through a character. -/
def astray {α : Type} : Cut α := ExceptT.mk none

/-- The text from here on. -/
def slice (bytes : List UInt8) : Cut (List UInt8) := if boundary bytes then return bytes else astray

/-- The text of the next `n` bytes. -/
def sliceTo (n : Nat) (bytes : List UInt8) : Cut (List UInt8) :=
  match get? n bytes with
  | some text => return text
  | none => astray

/-- Skip blanks and comments. -/
def skipTrivia : Nat → Nat → List UInt8 → Cut (Piece Unit)
  | 0, _, _ => astray
  | _ + 1, offset, [] => return ⟨(), offset, []⟩
  | fuel + 1, offset, b :: rest => do
    if [' ', '\t', '\n', '\r'].contains (asChar b) then skipTrivia fuel (offset + 1) rest
    else if startsWith ['/', '/'] (b :: rest) then
      skipTrivia fuel (offset + ((b :: rest).takeWhile (asChar · ≠ '\n')).length)
        ((b :: rest).dropWhile (asChar · ≠ '\n'))
    else if startsWith ['/', '*'] (b :: rest) then
      match find? ['*', '/'] (← slice (rest.drop 1)) with
      | some n => skipTrivia fuel (offset + n + 4) (rest.drop (n + 3))
      | none => throw ⟨.openComment, offset⟩
    else return ⟨(), offset, b :: rest⟩

/-- The next character, whatever it is. -/
def readChar (fault : SyntaxError) (offset : Nat) (bytes : List UInt8) : Cut (Piece Char) := do
  match first? (← slice bytes) with
  | some c => return ⟨c, offset + c.utf8Size, bytes.drop c.utf8Size⟩
  | none => throw fault

/-- The character whose code is in the next four bytes. -/
def readCode (offset : Nat) (bytes : List UInt8) : Cut (Piece Char) :=
  match get? 4 bytes with
  | some [b₁, b₂, b₃, b₄] =>
    match escapeCode? (asChar b₁) (asChar b₂) (asChar b₃) (asChar b₄) with
    | none => throw ⟨.badEscape, offset⟩
    | some code =>
      match scalar? code with
      | none => throw ⟨.badEscape, offset + 4⟩
      | some char => return ⟨char, offset + 4, bytes.drop 4⟩
  | _ => throw ⟨.badEscape, offset⟩

/-- What the bytes after a backslash stand for. -/
def readEscape (start offset : Nat) : List UInt8 → Cut (Piece Char)
  | [] => throw ⟨.openString, start⟩
  | b :: rest =>
    if asChar b = 'u' then readCode (offset + 1) rest
    else if ['n', 'r', 't', '0'].contains (asChar b) then
      return ⟨escaped (asChar b), offset + 1, rest⟩
    else readChar ⟨.openString, start⟩ offset (b :: rest)

/-- The rest of a quoted text. -/
def readQuoted (start : Nat) (quote : Char) :
    Nat → List Char → Nat → List UInt8 → Cut (Piece TokenKind)
  | 0, _, _, _ => astray
  | _ + 1, _, _, [] => throw ⟨.openString, start⟩
  | fuel + 1, out, offset, b :: rest => do
    if asChar b = quote then return ⟨.str (String.ofList out.reverse), offset + 1, rest⟩
    else if asChar b = '\\' then
      let piece ← readEscape start (offset + 1) rest
      readQuoted start quote fuel (piece.value :: out) piece.offset piece.rest
    else if asChar b = '\n' then throw ⟨.lineBreak, start⟩
    else
      let piece ← readChar ⟨.openString, start⟩ offset (b :: rest)
      readQuoted start quote fuel (piece.value :: out) piece.offset piece.rest

/-- The rest of a backtick text. -/
def readTemplate (start : Nat) : Nat → List Char → Nat → List UInt8 → Cut (Piece TokenKind)
  | 0, _, _, _ => astray
  | _ + 1, _, _, [] => throw ⟨.openTemplate, start⟩
  | fuel + 1, out, offset, b :: rest => do
    if asChar b = '\x60' then return ⟨.str (String.ofList out.reverse), offset + 1, rest⟩
    else if startsWith ['\\', '\x60'] (b :: rest) then
      readTemplate start fuel ('\x60' :: out) (offset + 2) (rest.drop 1)
    else if startsWith ['\\', '\\'] (b :: rest) then
      readTemplate start fuel ('\\' :: out) (offset + 2) (rest.drop 1)
    else
      let piece ← readChar ⟨.openTemplate, start⟩ offset (b :: rest)
      readTemplate start fuel (piece.value :: out) piece.offset piece.rest

/-- The longest run of bytes that stand for wanted characters. -/
def readRun (wanted : Char → Bool) (start : Nat) (bytes : List UInt8) : Cut (Piece (List Char)) := do
  let n := (bytes.takeWhile fun b => wanted (asChar b)).length
  return ⟨(← sliceTo n bytes).map asChar, start + n, bytes.drop n⟩

/-- A number. -/
def readNumber (start : Nat) (bytes : List UInt8) : Cut (Piece TokenKind) := do
  let run ← readRun isNumberPart start bytes
  match numberValue? run.value with
  | some value => return ⟨.num value, run.offset, run.rest⟩
  | none => throw ⟨.badNumber, start⟩

/-- An identifier. -/
def readIdent (start : Nat) (bytes : List UInt8) : Cut (Piece TokenKind) := do
  let run ← readRun isIdentPart start bytes
  return ⟨.ident (String.ofList run.value), run.offset, run.rest⟩

/-- Marks and operators, each before those that it begins with. -/
def marks : List (List Char × Punct) :=
  [(['('], .leftParen), ([')'], .rightParen), (['['], .leftSquare), ([']'], .rightSquare),
    (['\x7b'], .leftBrace), (['\x7d'], .rightBrace), ([','], .comma), (['.'], .dot),
    ([';'], .semi), ([':'], .colon), (['?'], .question), (['+'], .plus), (['=', '>'], .arrow),
    (['=', '=', '='], .strictEq), (['='], .assign), (['!', '=', '='], .strictNotEq),
    (['!'], .bang), (['&', '&'], .andAnd), (['|', '|'], .orOr)]

/-- A mark or operator. -/
def readPunct (start : Nat) (bytes : List UInt8) : Cut (Piece TokenKind) :=
  match marks.find? fun entry => startsWith entry.1 bytes with
  | some (mark, punct) => return ⟨.punct punct, start + mark.length, bytes.drop mark.length⟩
  | none => do throw ⟨.strayCharacter ((first? (← slice bytes)).getD '?'), start⟩

/-- The token that starts with `b`. -/
def readToken (start : Nat) (b : UInt8) (rest : List UInt8) : Cut (Piece TokenKind) :=
  if asChar b = '"' || asChar b = '\'' then
    readQuoted start (asChar b) (rest.length + 1) [] (start + 1) rest
  else if asChar b = '\x60' then readTemplate start (rest.length + 1) [] (start + 1) rest
  else if (asChar b).isDigit then readNumber start (b :: rest)
  else if isIdentStart (asChar b) then readIdent start (b :: rest)
  else readPunct start (b :: rest)

/-- The tokens of the bytes that are left. -/
def tokensFrom : Nat → Nat → List UInt8 → Cut (List Token)
  | 0, _, _ => astray
  | fuel + 1, offset, bytes => do
    let skipped ← skipTrivia (bytes.length + 1) offset bytes
    match skipped.rest with
    | [] => return [⟨.eof, skipped.offset⟩]
    | b :: rest =>
      let piece ← readToken skipped.offset b rest
      return ⟨piece.value, skipped.offset⟩ :: (← tokensFrom fuel piece.offset piece.rest)

/-- The tokens of a source text, read by its bytes. -/
def tokenize (source : String) : Cut (List Token) :=
  tokensFrom (source.utf8ByteSize + 1) 0 source.toByteArray.data.toList

end Bytewise

namespace Lexer

open Bytewise (Cut Piece asChar get? slice sliceTo first? startsWith find?)

variable {α : Type} {start offset : Nat} {quote c : Char} {text out : List Char} {b : UInt8}
  {p : Char → Bool}

/-- What a reader of characters reads, as a reader of bytes has it. -/
def cut : Except SyntaxError (Read α) → Cut (Piece α)
  | .ok read => return ⟨read.value, read.offset, bytes read.rest⟩
  | .error e => throw e

theorem slice_bytes (text : List Char) : slice (bytes text) = pure (bytes text) := by
  unfold slice
  rw [boundary_bytes, if_pos rfl]

theorem readChar_bytes (fault : SyntaxError) (offset : Nat) (c : Char) (text : List Char) :
    Bytewise.readChar fault offset (bytes (c :: text)) =
      pure ⟨c, offset + c.utf8Size, bytes text⟩ := by
  have hdrop := drop_bytes [c] text
  rw [length_bytes, String.utf8Len_cons, String.utf8Len_nil, Nat.zero_add, List.singleton_append]
    at hdrop
  unfold Bytewise.readChar
  rw [slice_bytes, pure_bind, first?_bytes]
  dsimp only
  rw [hdrop]

/-- A comment to the end of the line is skipped as a run. -/
theorem skipTrivia_line (offset : Nat) (text : List Char) : skipTrivia offset .line text =
    skipTrivia (offset + String.utf8Len (text.takeWhile (· ≠ '\n'))) .blank
      (text.dropWhile (· ≠ '\n')) := by
  induction text generalizing offset with
  | nil => rfl
  | cons c text ih =>
      by_cases hc : c = '\n'
      · subst hc
        rfl
      · have hgo : decide (c ≠ '\n') = true := decide_eq_true hc
        rw [List.takeWhile_cons_of_pos (p := (· ≠ '\n')) hgo,
          List.dropWhile_cons_of_pos (p := (· ≠ '\n')) hgo, String.utf8Len_cons, skipTrivia, ih]
        · congr 1
          omega
        · exact hc

/-- A comment between marks is skipped up to the second one, if that is found. -/
theorem skipTrivia_block (start offset : Nat) (text : List Char) :
    match find? ['*', '/'] (bytes text) with
    | none => skipTrivia offset (.block start) text = .error ⟨.openComment, start⟩
    | some n => ∃ front rest, text = front ++ '*' :: '/' :: rest ∧ n = String.utf8Len front ∧
        skipTrivia offset (.block start) text = skipTrivia (offset + n + 2) .blank rest := by
  induction text generalizing offset with
  | nil => rfl
  | cons c text ih =>
      rw [find?_bytes (by decide)]
      by_cases hclose : (['*', '/'] : List Char).isPrefixOf (c :: text) = true
      · rw [if_pos hclose]
        obtain ⟨rest, rfl, rfl⟩ := isPrefixOf_pair.mp hclose
        exact ⟨[], rest, rfl, rfl, rfl⟩
      · rw [if_neg hclose]
        have hstep : skipTrivia offset (.block start) (c :: text) =
            skipTrivia (offset + c.utf8Size) (.block start) text := by
          rw [skipTrivia]
          rintro rest rfl rfl
          exact hclose (isPrefixOf_pair.mpr ⟨rest, rfl, rfl⟩)
        have hrest := ih (offset + c.utf8Size)
        cases hfind : find? ['*', '/'] (bytes text) with
        | none =>
            rw [hfind] at hrest
            exact hstep.trans hrest
        | some n =>
            rw [hfind] at hrest
            obtain ⟨front, rest, rfl, rfl, hsame⟩ := hrest
            refine ⟨c :: front, rest, rfl, (String.utf8Len_cons c front).symm, ?_⟩
            rw [hstep, hsame]
            congr 1
            dsimp only
            omega

theorem skipTrivia_gap (hc : c ∈ [' ', '\t', '\n', '\r']) (offset : Nat) (text : List Char) :
    c.utf8Size = 1 ∧
      skipTrivia offset .blank (c :: text) = skipTrivia (offset + 1) .blank text := by
  simp only [List.mem_cons, List.not_mem_nil, or_false] at hc
  rcases hc with rfl | rfl | rfl | rfl <;> exact ⟨rfl, rfl⟩

theorem skipTrivia_stop (hgap : ¬ [' ', '\t', '\n', '\r'].contains c = true)
    (hline : ¬ (['/', '/'] : List Char).isPrefixOf (c :: text) = true)
    (hblock : ¬ (['/', '*'] : List Char).isPrefixOf (c :: text) = true) (offset : Nat) :
    skipTrivia offset .blank (c :: text) = .ok ⟨(), offset, c :: text⟩ := by
  rw [skipTrivia, if_neg]
  · simpa only [List.contains_iff_mem, List.mem_cons, List.not_mem_nil, or_false,
      Bool.or_eq_true, decide_eq_true_eq, or_assoc] using hgap
  · rintro rest rfl rfl
    exact hline (isPrefixOf_pair.mpr ⟨rest, rfl, rfl⟩)
  · rintro rest rfl rfl
    exact hblock (isPrefixOf_pair.mpr ⟨rest, rfl, rfl⟩)

/-- A comment to the end of the line is skipped as a run, its mark included. -/
theorem skipTrivia_slashes (offset : Nat) (rest : List Char) :
    skipTrivia offset .blank ('/' :: '/' :: rest) =
      skipTrivia (offset + String.utf8Len (('/' :: '/' :: rest).takeWhile (· ≠ '\n'))) .blank
        (('/' :: '/' :: rest).dropWhile (· ≠ '\n')) := by
  have hrun : String.utf8Len (('/' :: '/' :: rest).takeWhile (· ≠ '\n')) =
      2 + String.utf8Len (rest.takeWhile (· ≠ '\n')) := by
    change String.utf8Len (['/', '/'] ++ rest.takeWhile (· ≠ '\n')) = _
    rw [String.utf8Len_append]
    rfl
  have hskip : skipTrivia offset .blank ('/' :: '/' :: rest) =
      skipTrivia (offset + 2) .line rest := rfl
  rw [hrun, hskip, skipTrivia_line, ← Nat.add_assoc]
  rfl

theorem skipTrivia_bytes : ∀ fuel offset (text : List Char), text.length < fuel →
    Bytewise.skipTrivia fuel offset (bytes text) = cut (skipTrivia offset .blank text)
  | fuel + 1, offset, [], _ => rfl
  | fuel + 1, offset, c :: text, h => by
      have hfuel : text.length < fuel := Nat.lt_of_succ_lt_succ h
      obtain ⟨b, more, hb⟩ := leads c
      have hgap : [' ', '\t', '\n', '\r'].contains (asChar b) = [' ', '\t', '\n', '\r'].contains c :=
        hb.contains (by decide)
      have hline := @startsWith_bytes ['/', '/'] (by decide) (c :: text)
      have hblock := @startsWith_bytes ['/', '*'] (by decide) (c :: text)
      rw [hb.bytes_cons] at hline hblock
      rw [hb.bytes_cons, Bytewise.skipTrivia, hgap, hline, hblock, ← hb.bytes_cons]
      by_cases hisGap : [' ', '\t', '\n', '\r'].contains c = true
      · obtain ⟨hone, hskip⟩ := skipTrivia_gap (List.contains_iff_mem.mp hisGap) offset text
        rw [if_pos hisGap, (hb.single hone).2, List.nil_append, hskip]
        exact skipTrivia_bytes fuel (offset + 1) text hfuel
      rw [if_neg hisGap]
      by_cases hisLine : (['/', '/'] : List Char).isPrefixOf (c :: text) = true
      · rw [if_pos hisLine]
        obtain ⟨rest, rfl, rfl⟩ := isPrefixOf_pair.mp hisLine
        obtain ⟨htake, hdrop⟩ := span_bytes (p := (· ≠ '\n')) ne_newline_bytes ('/' :: '/' :: rest)
        have hleft : (rest.dropWhile (· ≠ '\n')).length < fuel :=
          Nat.lt_of_le_of_lt (List.dropWhile_suffix _).length_le (Nat.lt_of_succ_lt hfuel)
        rw [htake, hdrop, length_bytes, skipTrivia_slashes]
        exact skipTrivia_bytes fuel _ _ hleft
      rw [if_neg hisLine]
      by_cases hisBlock : (['/', '*'] : List Char).isPrefixOf (c :: text) = true
      · rw [if_pos hisBlock]
        obtain ⟨rest, rfl, rfl⟩ := isPrefixOf_pair.mp hisBlock
        have hskip : skipTrivia offset .blank ('/' :: '*' :: rest) =
            skipTrivia (offset + 2) (.block offset) rest := rfl
        have hblocked := skipTrivia_block offset (offset + 2) rest
        rw [(hb.single rfl).2, List.nil_append, bytes_single rfl, List.drop_succ_cons,
          List.drop_zero, slice_bytes, pure_bind, hskip]
        cases hfind : find? ['*', '/'] (bytes rest) with
        | none =>
            rw [hfind] at hblocked
            rw [show skipTrivia (offset + 2) (.block offset) rest = _ from hblocked]
            rfl
        | some n =>
            rw [hfind] at hblocked
            obtain ⟨front, later, rfl, rfl, hsame⟩ := hblocked
            have hclosed : (bytes (front ++ '*' :: '/' :: later)).drop (String.utf8Len front + 2) =
                bytes later := by
              have hdrop := drop_bytes (front ++ ['*', '/']) later
              rw [length_bytes, String.utf8Len_append, List.append_assoc] at hdrop
              exact hdrop
            have hleft : later.length < fuel := by
              simp only [List.length_cons, List.length_append] at hfuel
              omega
            dsimp only
            rw [List.drop_succ_cons, hclosed, hsame, Nat.add_right_comm offset 2]
            exact skipTrivia_bytes fuel _ _ hleft
      rw [if_neg hisBlock, skipTrivia_stop hisGap hisLine hisBlock]
      rfl

/-- The next four bytes are those of a code, and then they are four
    characters, or there is no code in either. -/
theorem code_bytes (text : List Char) :
    (∃ a b c d rest code, text = a :: b :: c :: d :: rest ∧ escapeCode? a b c d = some code ∧
      ∃ b₁ b₂ b₃ b₄, bytes text = b₁ :: b₂ :: b₃ :: b₄ :: bytes rest ∧
        get? 4 (bytes text) = some [b₁, b₂, b₃, b₄] ∧
        asChar b₁ = a ∧ asChar b₂ = b ∧ asChar b₃ = c ∧ asChar b₄ = d) ∨
    (∀ a b c d rest, text = a :: b :: c :: d :: rest → escapeCode? a b c d = none) ∧
      ∀ b₁ b₂ b₃ b₄, get? 4 (bytes text) = some [b₁, b₂, b₃, b₄] →
        escapeCode? (asChar b₁) (asChar b₂) (asChar b₃) (asChar b₄) = none := by
  have hsingle {a b c d : Char} {code : Nat} (h : escapeCode? a b c d = some code) :
      a.utf8Size = 1 ∧ b.utf8Size = 1 ∧ c.utf8Size = 1 ∧ d.utf8Size = 1 := by
    obtain ⟨w, x, y, z, ha, hb, hc, hd, -⟩ := escapeCode?_eq_some_iff.mp h
    exact ⟨(plain_of_signedDigit? ha).2, (plain_of_hexDigit? hb).2, (plain_of_hexDigit? hc).2,
      (plain_of_hexDigit? hd).2⟩
  by_cases hcode : ∃ a b c d rest code, text = a :: b :: c :: d :: rest ∧
      escapeCode? a b c d = some code
  · obtain ⟨a, b, c, d, rest, code, rfl, hcode⟩ := hcode
    obtain ⟨ha, hb, hc, hd⟩ := hsingle hcode
    have hbytes (text : List Char) : bytes (a :: b :: c :: d :: text) = a.val.toUInt8 ::
        b.val.toUInt8 :: c.val.toUInt8 :: d.val.toUInt8 :: bytes text := by
      rw [bytes_single ha, bytes_single hb, bytes_single hc, bytes_single hd]
    have hget := get?_bytes [a, b, c, d] rest
    rw [hbytes] at hget
    exact Or.inl ⟨a, b, c, d, rest, code, rfl, hcode, _, _, _, _, hbytes rest, hget,
      asChar_single ha, asChar_single hb, asChar_single hc, asChar_single hd⟩
  · refine Or.inr ⟨fun a b c d rest htext => ?_, fun b₁ b₂ b₃ b₄ hget => ?_⟩
    · cases hread : escapeCode? a b c d with
      | none => rfl
      | some code => exact absurd ⟨a, b, c, d, rest, code, htext, hread⟩ hcode
    · cases hread : escapeCode? (asChar b₁) (asChar b₂) (asChar b₃) (asChar b₄) with
      | none => rfl
      | some code =>
          -- The bytes of digits are characters, so the characters would be a code.
          have htake : (bytes text).take 4 = [b₁, b₂, b₃, b₄] := by
            unfold get? at hget
            split at hget
            · exact Option.some.inj hget
            · cases hget
          have hbytes := (List.take_append_drop 4 (bytes text)).symm
          rw [htake] at hbytes
          obtain ⟨h₁, h₂, h₃, h₄⟩ := hsingle hread
          obtain ⟨text₁, rfl, hbytes⟩ := single_of_bytes h₁ hbytes
          obtain ⟨text₂, rfl, hbytes⟩ := single_of_bytes h₂ hbytes
          obtain ⟨text₃, rfl, hbytes⟩ := single_of_bytes h₃ hbytes
          obtain ⟨text₄, rfl, -⟩ := single_of_bytes h₄ hbytes
          exact absurd ⟨_, _, _, _, _, code, rfl, hread⟩ hcode

theorem readQuoted_badCode (h : ∀ a b c d rest, text = a :: b :: c :: d :: rest →
    escapeCode? a b c d = none) : readQuoted start quote out offset ('\\' :: 'u' :: text) =
      .error ⟨.badEscape, offset + 2⟩ := by
  match text with
  | a :: b :: c :: d :: rest => rw [readQuoted, h a b c d rest rfl]
  | [] | [_] | [_, _] | [_, _, _] => rfl

/-- What the bytes of an escape stand for is what its characters stand for. -/
theorem readEscape_bytes (start offset : Nat) (quote : Char) (text : List Char) :
    (∃ e, Bytewise.readEscape start (offset + 1) (bytes text) = throw e ∧
      ∀ out, readQuoted start quote out offset ('\\' :: text) = .error e) ∨
    ∃ char next rest, rest.length < text.length ∧
      Bytewise.readEscape start (offset + 1) (bytes text) = pure ⟨char, next, bytes rest⟩ ∧
      ∀ out, readQuoted start quote out offset ('\\' :: text) =
        readQuoted start quote (char :: out) next rest := by
  cases text with
  | nil => exact Or.inl ⟨⟨.openString, start⟩, rfl, fun _ => rfl⟩
  | cons c text =>
      obtain ⟨b, more, hb⟩ := leads c
      rw [hb.bytes_cons, Bytewise.readEscape]
      by_cases hu : c = 'u'
      · rw [if_pos ((hb.eq_iff rfl).mpr hu)]
        subst hu
        rw [(hb.single rfl).2, List.nil_append]
        unfold Bytewise.readCode
        rcases code_bytes text with
          ⟨a, b, c, d, rest, code, rfl, hcode, b₁, b₂, b₃, b₄, hbytes, hget, rfl, rfl, rfl, rfl⟩ |
          ⟨hchars, hnone⟩
        · rw [hget]
          dsimp only
          rw [hcode]
          dsimp only
          cases hchar : scalar? code with
          | none =>
              refine Or.inl ⟨⟨.badEscape, offset + 6⟩, rfl, fun out => ?_⟩
              rw [readQuoted, hcode]
              dsimp only
              rw [hchar]
          | some char =>
              refine Or.inr ⟨char, offset + 6, rest, ?_, ?_, fun out => ?_⟩
              · simp only [List.length_cons]
                omega
              · rw [hbytes]
                rfl
              · rw [readQuoted, hcode]
                dsimp only
                rw [hchar]
        · refine Or.inl ⟨⟨.badEscape, offset + 2⟩, ?_, fun out => readQuoted_badCode hchars⟩
          split
          · next b₁ b₂ b₃ b₄ hget => rw [hnone b₁ b₂ b₃ b₄ hget]
          · rfl
      · rw [if_neg fun h => hu ((hb.eq_iff rfl).mp h)]
        refine Or.inr ⟨escaped c, offset + 1 + c.utf8Size, text, Nat.lt_succ_self _, ?_,
          fun out => readQuoted_escape hu⟩
        have hcontrol : ['n', 'r', 't', '0'].contains (asChar b) = ['n', 'r', 't', '0'].contains c :=
          hb.contains (by decide)
        rw [hcontrol]
        by_cases hmem : ['n', 'r', 't', '0'].contains c = true
        · have hone : narrow ['n', 'r', 't', '0'] = true := rfl
          have hc := utf8Size_of_narrow hone (List.contains_iff_mem.mp hmem)
          rw [if_pos hmem, (hb.single hc).1, (hb.single hc).2, hc]
          rfl
        · have hself : escaped c = c := by
            refine (escaped_of_not_mem fun hall => ?_).2
            rcases List.mem_append.mp (show c ∈ ['n', 'r', 't', '0'] ++ ['u'] from hall) with h | h
            · exact hmem (List.contains_iff_mem.mpr h)
            · exact hu (List.mem_singleton.mp h)
          rw [if_neg hmem, hself, ← hb.bytes_cons]
          exact readChar_bytes _ _ c text

theorem readQuoted_bytes (hquote : quote ∈ ['"', '\'']) (start : Nat) :
    ∀ fuel out offset (text : List Char), text.length < fuel →
      Bytewise.readQuoted start quote fuel out offset (bytes text) =
        cut (readQuoted start quote out offset text)
  | fuel + 1, out, offset, [], _ => rfl
  | fuel + 1, out, offset, c :: text, h => by
      have hone : narrow ['"', '\''] = true := rfl
      have hsize := utf8Size_of_narrow hone hquote
      have hescape := quote_ne_backslash hquote
      have hfuel : text.length < fuel := Nat.lt_of_succ_lt_succ h
      obtain ⟨b, more, hb⟩ := leads c
      rw [hb.bytes_cons, Bytewise.readQuoted]
      by_cases hend : c = quote
      · rw [if_pos ((hb.eq_iff hsize).mpr hend), (hb.single (hend ▸ hsize)).2,
          readQuoted_plain (hend ▸ hescape), if_pos hend]
        rfl
      rw [if_neg fun h => hend ((hb.eq_iff hsize).mp h)]
      by_cases hback : c = '\\'
      · rw [if_pos ((hb.eq_iff rfl).mpr hback)]
        subst hback
        rw [(hb.single rfl).2, List.nil_append]
        rcases readEscape_bytes start offset quote text with
          ⟨e, hbytes, hchars⟩ | ⟨char, next, rest, hlt, hbytes, hchars⟩
        · rw [hbytes, hchars]
          rfl
        · rw [hbytes, hchars, pure_bind]
          exact readQuoted_bytes hquote start fuel _ _ rest (Nat.lt_trans hlt hfuel)
      rw [if_neg fun h => hback ((hb.eq_iff rfl).mp h), readQuoted_plain hback, if_neg hend]
      by_cases hline : c = '\n'
      · rw [if_pos ((hb.eq_iff rfl).mpr hline), if_pos hline]
        rfl
      · rw [if_neg fun h => hline ((hb.eq_iff rfl).mp h), if_neg hline, ← hb.bytes_cons,
          readChar_bytes, pure_bind]
        exact readQuoted_bytes hquote start fuel _ _ text hfuel

theorem readTemplate_bytes (start : Nat) : ∀ fuel out offset (text : List Char), text.length < fuel →
    Bytewise.readTemplate start fuel out offset (bytes text) =
      cut (readTemplate start out offset text)
  | fuel + 1, out, offset, [], _ => rfl
  | fuel + 1, out, offset, c :: text, h => by
      have hfuel : text.length < fuel := Nat.lt_of_succ_lt_succ h
      obtain ⟨b, more, hb⟩ := leads c
      have htick := @startsWith_bytes ['\\', '\x60'] (by decide) (c :: text)
      have hback := @startsWith_bytes ['\\', '\\'] (by decide) (c :: text)
      rw [hb.bytes_cons] at htick hback
      rw [hb.bytes_cons, Bytewise.readTemplate, htick, hback]
      by_cases hend : c = '\x60'
      · rw [if_pos ((hb.eq_iff rfl).mpr hend)]
        subst hend
        rw [(hb.single rfl).2]
        rfl
      rw [if_neg fun h => hend ((hb.eq_iff rfl).mp h)]
      by_cases hisTick : (['\\', '\x60'] : List Char).isPrefixOf (c :: text) = true
      · rw [if_pos hisTick]
        obtain ⟨rest, rfl, rfl⟩ := isPrefixOf_pair.mp hisTick
        rw [(hb.single rfl).2]
        exact readTemplate_bytes start fuel _ _ rest (Nat.lt_of_succ_lt hfuel)
      rw [if_neg hisTick]
      by_cases hisBack : (['\\', '\\'] : List Char).isPrefixOf (c :: text) = true
      · rw [if_pos hisBack]
        obtain ⟨rest, rfl, rfl⟩ := isPrefixOf_pair.mp hisBack
        rw [(hb.single rfl).2]
        exact readTemplate_bytes start fuel _ _ rest (Nat.lt_of_succ_lt hfuel)
      rw [if_neg hisBack, ← hb.bytes_cons, readChar_bytes, pure_bind]
      have hplain : readTemplate start out offset (c :: text) =
          readTemplate start (c :: out) (offset + c.utf8Size) text := by
        rw [readTemplate]
        · exact hend
        · rintro rest rfl rfl
          exact hisTick (isPrefixOf_pair.mpr ⟨rest, rfl, rfl⟩)
        · rintro rest rfl rfl
          exact hisBack (isPrefixOf_pair.mpr ⟨rest, rfl, rfl⟩)
      rw [hplain]
      exact readTemplate_bytes start fuel _ _ text hfuel

/-- A run of characters of one byte each is cut out as a whole. -/
theorem readRun_bytes (hp : ∀ c, p c = true → c.utf8Size = 1) (start : Nat) (text : List Char) :
    Bytewise.readRun p start (bytes text) = pure ⟨text.takeWhile p,
      start + (text.takeWhile p).length, bytes (text.dropWhile p)⟩ := by
  obtain ⟨htake, -⟩ := span_bytes (fun c b hb => asChar_congr hp hb) text
  have hget := get?_bytes (text.takeWhile p) (text.dropWhile p)
  have hdrop := drop_bytes (text.takeWhile p) (text.dropWhile p)
  rw [List.takeWhile_append_dropWhile] at hget hdrop
  have hmap : (bytes (text.takeWhile p)).map asChar = text.takeWhile p :=
    map_asChar_bytes fun c hc => hp c (List.mem_takeWhile_imp hc)
  have hlen : (bytes (text.takeWhile p)).length = (text.takeWhile p).length := by
    rw [length_bytes, utf8Len_takeWhile hp]
  unfold Bytewise.readRun sliceTo
  dsimp only
  rw [htake, hget, hdrop]
  dsimp only
  rw [pure_bind, hmap, hlen]

theorem readNumber_bytes (start : Nat) (text : List Char) :
    Bytewise.readNumber start (bytes text) = cut (readNumber start text) := by
  unfold Bytewise.readNumber readNumber
  rw [readRun_bytes (p := isNumberPart) (fun _ => utf8Size_of_isNumberPart), pure_bind]
  dsimp only
  cases numberValue? (text.takeWhile isNumberPart) <;> rfl

theorem readIdent_bytes (start : Nat) (text : List Char) :
    Bytewise.readIdent start (bytes text) = cut (.ok (readIdent start text)) := by
  unfold Bytewise.readIdent readIdent
  rw [readRun_bytes (p := isIdentPart) (fun _ => utf8Size_of_isIdentPart), pure_bind]
  rfl

/-- The first mark of the table that the text begins with is the one that is
    read. -/
theorem readPunct_eq (start : Nat) (c : Char) (rest : List Char) : readPunct start c rest =
    match Bytewise.marks.find? fun entry => entry.1.isPrefixOf (c :: rest) with
    | some (mark, punct) => .ok ⟨.punct punct, start + mark.length, (c :: rest).drop mark.length⟩
    | none => .error ⟨.strayCharacter c, start⟩ := by
  have hno {mark : List Char} (h : ∀ later, rest = mark ++ later → False) :
      mark.isPrefixOf rest = false :=
    Bool.eq_false_iff.mpr fun hprefix => by
      obtain ⟨later, hlater⟩ := List.isPrefixOf_iff_prefix.mp hprefix
      exact h later hlater.symm
  fun_cases readPunct start c rest
  -- Marks that are also the beginnings of others, and what is none.
  case case15 harrow hequal =>
    have h₁ : (['>'] : List Char).isPrefixOf rest = false := hno harrow
    have h₂ : (['=', '='] : List Char).isPrefixOf rest = false := hno hequal
    simp [Bytewise.marks, h₁, h₂]
  case case17 hequal =>
    have h₁ : (['=', '='] : List Char).isPrefixOf rest = false := hno hequal
    simp [Bytewise.marks, h₁]
  case case20 =>
    have hnone : (Bytewise.marks.find? fun entry => entry.1.isPrefixOf (c :: rest)) = none := by
      refine List.find?_eq_none.mpr fun entry hentry hprefix => ?_
      obtain ⟨later, hlater⟩ := List.isPrefixOf_iff_prefix.mp hprefix
      simp only [Bytewise.marks, List.mem_cons, List.not_mem_nil, or_false] at hentry
      rcases hentry with rfl | rfl | rfl | rfl | rfl | rfl | rfl | rfl | rfl | rfl | rfl | rfl |
        rfl | rfl | rfl | rfl | rfl | rfl | rfl <;> cases hlater <;> simp_all
    rw [hnone]
  all_goals rfl

theorem readPunct_bytes (start : Nat) (c : Char) (rest : List Char) :
    Bytewise.readPunct start (bytes (c :: rest)) = cut (readPunct start c rest) := by
  have hmarks : ∀ entry ∈ Bytewise.marks, narrow entry.1 = true := List.all_eq_true.mp rfl
  have hfind : (Bytewise.marks.find? fun entry => startsWith entry.1 (bytes (c :: rest))) =
      Bytewise.marks.find? fun entry => entry.1.isPrefixOf (c :: rest) :=
    List.find?_congr fun entry hentry => startsWith_bytes (hmarks entry hentry) _
  unfold Bytewise.readPunct
  rw [hfind, readPunct_eq]
  split
  · next mark punct hmark =>
    have hsingle := hmarks _ (List.mem_of_find?_eq_some hmark)
    have hprefix : mark.isPrefixOf (c :: rest) = true :=
      List.find?_some (p := fun entry : List Char × Punct => entry.1.isPrefixOf (c :: rest)) hmark
    obtain ⟨later, hlater⟩ := List.isPrefixOf_iff_prefix.mp hprefix
    have hdrop := drop_bytes mark later
    rw [length_bytes, utf8Len_eq_length fun _ => utf8Size_of_narrow hsingle] at hdrop
    rw [← hlater, hdrop, List.drop_left]
    rfl
  · rw [slice_bytes, pure_bind, first?_bytes]
    rfl

theorem utf8Size_of_isIdentStart (h : isIdentStart c = true) : c.utf8Size = 1 :=
  utf8Size_of_isIdentPart (by rw [isIdentPart, h, Bool.true_or])

theorem readToken_bytes {more : List UInt8} (hb : Leads c b more) (start : Nat)
    (rest : List Char) : Bytewise.readToken start b (more ++ bytes rest) =
      cut (readToken start c rest) := by
  have hquotes : (decide (asChar b = '"') || decide (asChar b = '\'')) =
      (decide (c = '"') || decide (c = '\'')) := by
    rw [decide_eq_decide.mpr (hb.eq_iff rfl), decide_eq_decide.mpr (hb.eq_iff rfl)]
  have hrounds : rest.length < (bytes rest).length + 1 := Nat.lt_succ_of_le (length_le_bytes rest)
  unfold Bytewise.readToken readToken
  rw [hquotes, hb.same (p := Char.isDigit) fun _ => utf8Size_of_isDigit,
    hb.same (p := isIdentStart) fun _ => utf8Size_of_isIdentStart, ← hb.bytes_cons]
  by_cases hquote : (decide (c = '"') || decide (c = '\'')) = true
  · have hmem : c ∈ ['"', '\''] := by
      simpa only [List.mem_cons, List.not_mem_nil, or_false, Bool.or_eq_true, decide_eq_true_eq]
        using hquote
    have hone : narrow ['"', '\''] = true := rfl
    rw [if_pos hquote, if_pos hquote, (hb.single (utf8Size_of_narrow hone hmem)).1,
      (hb.single (utf8Size_of_narrow hone hmem)).2]
    exact readQuoted_bytes hmem start _ _ _ rest hrounds
  rw [if_neg hquote, if_neg hquote]
  by_cases htick : c = '\x60'
  · rw [if_pos ((hb.eq_iff rfl).mpr htick), if_pos htick, (hb.single (htick ▸ rfl)).2]
    exact readTemplate_bytes start _ _ _ rest hrounds
  rw [if_neg fun h => htick ((hb.eq_iff rfl).mp h), if_neg htick]
  by_cases hdigit : c.isDigit = true
  · rw [if_pos hdigit, if_pos hdigit]
    exact readNumber_bytes start (c :: rest)
  rw [if_neg hdigit, if_neg hdigit]
  by_cases hident : isIdentStart c = true
  · rw [if_pos hident, if_pos hident]
    exact readIdent_bytes start (c :: rest)
  · rw [if_neg hident, if_neg hident]
    exact readPunct_bytes start c rest

theorem tokensFrom_bytes : ∀ fuel offset (text : List Char), text.length < fuel →
    (Bytewise.tokensFrom fuel offset (bytes text)).run = some (tokensFrom offset text)
  | fuel + 1, offset, text, h => by
      rw [Bytewise.tokensFrom, tokensFrom_eq,
        skipTrivia_bytes _ offset text (Nat.lt_succ_of_le (length_le_bytes text))]
      cases hskip : skipTrivia offset .blank text with
      | error e => rfl
      | ok skipped =>
          obtain ⟨_, start, left⟩ := skipped
          cases left with
          | nil => rfl
          | cons c rest =>
              obtain ⟨b, more, hb⟩ := leads c
              have hle := skipTrivia_length hskip
              change ((pure ⟨(), start, bytes (c :: rest)⟩ : Cut (Piece Unit)) >>= _).run = _
              rw [pure_bind, hb.bytes_cons]
              dsimp only
              rw [readToken_bytes hb]
              cases hread : readToken start c rest with
              | error e => rfl
              | ok read =>
                  have hlt := readToken_length hread
                  rw [List.length_cons] at hle
                  have hrest : Bytewise.tokensFrom fuel read.offset (bytes read.rest) =
                      ExceptT.mk (some (tokensFrom read.offset read.rest)) :=
                    tokensFrom_bytes fuel read.offset read.rest (by omega)
                  change ((pure ⟨read.value, read.offset, bytes read.rest⟩ :
                    Cut (Piece TokenKind)) >>= _).run = _
                  rw [pure_bind, hrest]
                  dsimp only
                  cases tokensFrom read.offset read.rest <;> rfl

end Lexer

/-- No slice is missing where a source text is read by its bytes, and the
    tokens are those of its characters. -/
theorem run_tokenize_bytes (source : String) :
    (Bytewise.tokenize source).run = some (tokenize source) := by
  have hlen : source.utf8ByteSize = (Lexer.bytes source.toList).length := by
    rw [Lexer.length_bytes, String.utf8Len_toList]
  unfold Bytewise.tokenize tokenize
  rw [Lexer.bytes_toList, hlen]
  exact Lexer.tokensFrom_bytes _ _ _ (Nat.lt_succ_of_le (Lexer.length_le_bytes _))

/-- Where the tokens of a source text stand. They are in order and between two
    characters, the last one and no other marks the end of the text, and what
    the text holds from a token on is cut into this one and those after it. -/
structure Positions (source : String) (tokens : List Token) : Prop where
  ordered : tokens.Pairwise fun a b => a.offset < b.offset
  boundary : ∀ token ∈ tokens, String.Pos.Raw.IsValid source ⟨token.offset⟩
  ends : ∃ before, tokens = before ++ [⟨.eof, source.utf8ByteSize⟩] ∧
    ∀ token ∈ before, token.kind ≠ .eof
  restarts : ∀ before token after, tokens = before ++ token :: after →
    ∃ skipped rest, source = skipped ++ rest ∧ skipped.utf8ByteSize = token.offset ∧
      ∃ again, tokenize rest = .ok again ∧
        token :: after = again.map fun later => later.moved token.offset

theorem Lexer.Positioned.positions {source : String} {tokens : List Token}
    (h : Lexer.Positioned 0 source.toList tokens) : Positions source tokens := by
  have hsplit {front rest : List Char} (h : source.toList = front ++ rest) :
      source = String.ofList front ++ String.ofList rest := by
    rw [← String.ofList_append, ← h, String.ofList_toList]
  refine ⟨h.ordered, fun token htoken => ?_, ?_, fun before token after hsame => ?_⟩
  · obtain ⟨before, after, rfl⟩ := List.append_of_mem htoken
    obtain ⟨front, rest, htext, hoffset, -⟩ := h.begins before token after rfl
    refine String.Pos.Raw.isValid_iff_exists_append.mpr ⟨_, _, hsplit htext, ?_⟩
    rw [hoffset, Nat.zero_add, ← String.utf8ByteSize_ofList]
    rfl
  · rw [← String.utf8Len_toList, ← Nat.zero_add (String.utf8Len _)]
    exact h.ends
  · obtain ⟨front, rest, htext, hoffset, hread⟩ := h.begins before token after hsame
    rw [Nat.zero_add] at hoffset
    refine ⟨_, _, hsplit htext, ?_, ?_⟩
    · rw [String.utf8ByteSize_ofList, hoffset]
    · -- The rest is read as it was after the characters before it.
      have hmoved := tokensFrom_moved token.offset 0 rest
      rw [Nat.zero_add, hread] at hmoved
      unfold tokenize
      rw [String.toList_ofList]
      cases hagain : tokensFrom 0 rest with
      | error e =>
          rw [hagain] at hmoved
          cases hmoved
      | ok again =>
          rw [hagain] at hmoved
          exact ⟨again, rfl, Except.ok.inj hmoved⟩

/-- Reading a source text by its bytes never takes a slice that begins or ends
    inside a character. It fails at a place that is not past the end of the
    text, or the tokens stand where they should. -/
theorem tokenize_positions (source : String) :
    (Bytewise.tokenize source).run = some (tokenize source) ∧
      match tokenize source with
      | .error e => e.offset ≤ source.utf8ByteSize
      | .ok tokens => Positions source tokens := by
  refine ⟨run_tokenize_bytes source, ?_⟩
  cases htokens : tokenize source with
  | error e =>
      have hle := Lexer.tokensFrom_error htokens
      rwa [Nat.zero_add, String.utf8Len_toList] at hle
  | ok tokens => exact (Lexer.tokensFrom_positioned htokens).positions

end Script

end RenderFold
