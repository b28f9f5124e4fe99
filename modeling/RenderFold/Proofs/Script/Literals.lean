import RenderFold.Script.Edit
import RenderFold.Script.Parser
import RenderFold.Script.Printer

/-!
# Literal Functions

A function that returns markup from a literal is printed and read again
before it is used. Reading gives back the function for any text whatsoever:
every character is either written as it stands or by an escape that stands
for it, and none of them ends the literal early.

## Main definitions

* `Tree.literal`: The tree of such a function.
* `Lexer.Reads`: The kinds of the tokens of a text.

## Theorems

* `Lexer.readQuoted_quoteChar`: A character of a literal is read back.
* `Lexer.readQuoted_quote`, `Lexer.readToken_quote`: So is a whole text.
* `parseFunction_literal`: So is the function.
-/

namespace RenderFold

namespace Script

/-- The tree of a function that returns markup from a literal. -/
def Tree.literal (text : String) : Tree :=
  .mk (.function (some "render") []
    [.mk (.ret (some (.mk (.call (.mk (.ident Helper.markup.name)) [.mk (.str text)]))))])

namespace Lexer

/-- Whether digits are the code of a character. -/
def isCode (code : Nat) : List Char → Bool
  | [a, b, c, d] => escapeCode? a b c d = some code && scalar? code = some (Char.ofNat code)
  | _ => false

/-- Characters that are written by a code are read by it. -/
theorem isCode_hexPadded {code : Nat} (h : code < 0x20 ∨ code = 0x2028 ∨ code = 0x2029) :
    isCode code (Text.hexPadded 4 code).toList = true := by
  -- There are few such characters, and each is looked at.
  have hall : ∀ code ∈ 0x2028 :: 0x2029 :: List.range 0x20,
      isCode code (Text.hexPadded 4 code).toList = true := by decide
  refine hall code ?_
  simp only [List.mem_cons, List.mem_range]
  omega

/-- A character of a literal is read back, and what follows is read next. -/
theorem readQuoted_quoteChar (start : Nat) (out : List Char) (offset : Nat) (c : Char)
    (text : List Char) : ∃ offset', readQuoted start '"' out offset (quoteChar c ++ text) =
      readQuoted start '"' (c :: out) offset' text := by
  unfold quoteChar
  split
  · next h => exact ⟨_, by rw [h]; rfl⟩
  split
  · next h => exact ⟨_, by rw [h]; rfl⟩
  split
  · next h => exact ⟨_, by rw [h]; rfl⟩
  split
  · next h => exact ⟨_, by rw [h]; rfl⟩
  split
  · next h => exact ⟨_, by rw [h]; rfl⟩
  split
  -- A control character or a line separator, written by its code.
  · next hcode =>
      simp only [Bool.or_eq_true, decide_eq_true_eq, or_assoc] at hcode
      have hread := isCode_hexPadded hcode
      unfold isCode at hread
      split at hread
      · next a b c' d hdigits =>
          simp only [Bool.and_eq_true, decide_eq_true_eq] at hread
          obtain ⟨hescape, hscalar⟩ := hread
          refine ⟨offset + 6, ?_⟩
          rw [hdigits]
          simp only [List.cons_append, List.nil_append, readQuoted, hescape, hscalar,
            Char.ofNat_toNat]
      · cases hread
  -- Any other character stands for itself. It neither ends the literal nor starts
  -- an escape.
  · next hquote hback hline _ _ _ =>
      refine ⟨offset + c.utf8Size, ?_⟩
      rw [List.singleton_append, readQuoted_plain hback, if_neg hquote, if_neg hline]

/-- A text is read back from its literal. -/
theorem readQuoted_quote (start : Nat) (text rest : List Char) :
    ∀ out offset, ∃ offset', readQuoted start '"' out offset
        (text.flatMap quoteChar ++ '"' :: rest) =
      .ok ⟨.str (String.ofList (out.reverse ++ text)), offset', rest⟩ := by
  -- By induction on the text, with what was read so far in reverse.
  induction text with
  | nil =>
      intro out offset
      refine ⟨offset + 1, ?_⟩
      rw [List.flatMap_nil, List.nil_append, List.append_nil]
      rfl
  | cons c text ih =>
      intro out offset
      rw [List.flatMap_cons, List.append_assoc]
      obtain ⟨next, hchar⟩ := readQuoted_quoteChar start out offset c
        (text.flatMap quoteChar ++ '"' :: rest)
      obtain ⟨offset', hrest⟩ := ih (c :: out) next
      refine ⟨offset', ?_⟩
      rw [hchar, hrest, List.reverse_cons, List.append_assoc]
      rfl

/-- A text that is quoted, with what comes after it. -/
theorem toList_quote_append (text : String) (rest : List Char) : (quote text).toList ++ rest =
    '"' :: (text.toList.flatMap quoteChar ++ '"' :: rest) := by
  rw [quote, String.toList_ofList, List.cons_append, List.append_assoc, List.singleton_append]

/-- A text that is quoted is one token, whatever comes after it. -/
theorem readToken_quote (start : Nat) (text : String) (rest : List Char) :
    ∃ next, readToken start '"' (text.toList.flatMap quoteChar ++ '"' :: rest) =
      .ok ⟨.str text, next, rest⟩ := by
  have hquoted := readQuoted_quote start text.toList rest [] (start + 1)
  rwa [List.reverse_nil, List.nil_append, String.ofList_toList] at hquoted

/-- Characters can be cut into tokens of the given kinds. -/
def Reads (text : List Char) (kinds : List TokenKind) : Prop :=
  ∀ offset, ∃ tokens, tokensFrom offset text = .ok tokens ∧ tokens.map (·.kind) = kinds

theorem Reads.nil {text : List Char}
    (hskip : ∀ offset, ∃ start, skipTrivia offset .blank text = .ok ⟨(), start, []⟩) :
    Reads text [.eof] := by
  intro offset
  obtain ⟨start, hskip⟩ := hskip offset
  refine ⟨[⟨.eof, start⟩], ?_, rfl⟩
  rw [tokensFrom_eq, hskip]

theorem Reads.cons {text rest later : List Char} {c : Char} {kind : TokenKind}
    {kinds : List TokenKind}
    (hskip : ∀ offset, ∃ start, skipTrivia offset .blank text = .ok ⟨(), start, c :: rest⟩)
    (hread : ∀ start, ∃ next, readToken start c rest = .ok ⟨kind, next, later⟩)
    (h : Reads later kinds) :
    Reads text (kind :: kinds) := by
  intro offset
  obtain ⟨start, hskip⟩ := hskip offset
  obtain ⟨next, hread⟩ := hread start
  obtain ⟨tokens, htokens, rfl⟩ := h next
  refine ⟨⟨kind, start⟩ :: tokens, ?_, rfl⟩
  rw [tokensFrom_eq, hskip]
  dsimp only
  rw [hread]
  dsimp only
  rw [htokens]

/-- What follows the text in a literal function. -/
theorem reads_end :
    Reads [')', ';', '\n', '\x7d', '\n']
      [.punct .rightParen, .punct .semi, .punct .rightBrace, .eof] :=
  .cons (fun _ => ⟨_, rfl⟩) (fun _ => ⟨_, rfl⟩) (.cons (fun _ => ⟨_, rfl⟩) (fun _ => ⟨_, rfl⟩)
    (.cons (fun _ => ⟨_, rfl⟩) (fun _ => ⟨_, rfl⟩) (.nil fun _ => ⟨_, rfl⟩)))

/-- What comes before it. -/
theorem reads_start {text : List Char} {kinds : List TokenKind} (h : Reads text kinds) :
    Reads ("function render() \x7b\n  return _ssrNode(".toList ++ text)
      (.ident "function" :: .ident "render" :: .punct .leftParen :: .punct .rightParen ::
        .punct .leftBrace :: .ident "return" :: .ident Helper.markup.name :: .punct .leftParen ::
        kinds) := by
  have hstart : "function render() \x7b\n  return _ssrNode(".toList =
      ['f', 'u', 'n', 'c', 't', 'i', 'o', 'n', ' ', 'r', 'e', 'n', 'd', 'e', 'r', '(', ')', ' ',
        '\x7b', '\n', ' ', ' ', 'r', 'e', 't', 'u', 'r', 'n', ' ', '_', 's', 's', 'r', 'N', 'o',
        'd', 'e', '('] := rfl
  rw [hstart]
  exact .cons (fun _ => ⟨_, rfl⟩) (fun _ => ⟨_, rfl⟩) (.cons (fun _ => ⟨_, rfl⟩) (fun _ => ⟨_, rfl⟩)
    (.cons (fun _ => ⟨_, rfl⟩) (fun _ => ⟨_, rfl⟩) (.cons (fun _ => ⟨_, rfl⟩) (fun _ => ⟨_, rfl⟩)
    (.cons (fun _ => ⟨_, rfl⟩) (fun _ => ⟨_, rfl⟩) (.cons (fun _ => ⟨_, rfl⟩) (fun _ => ⟨_, rfl⟩)
    (.cons (fun _ => ⟨_, rfl⟩) (fun _ => ⟨_, rfl⟩) (.cons (fun _ => ⟨_, rfl⟩) (fun _ => ⟨_, rfl⟩)
      h)))))))

theorem reads_literal (text : String) :
    Reads (Tree.literal text).print.toList
      [.ident "function", .ident "render", .punct .leftParen, .punct .rightParen,
        .punct .leftBrace, .ident "return", .ident Helper.markup.name, .punct .leftParen,
        .str text, .punct .rightParen, .punct .semi, .punct .rightBrace, .eof] := by
  have hprint : (Tree.literal text).print =
      "function " ++ "render" ++ "(" ++ "" ++ ") \x7b" ++
        ("\n  " ++ ("return " ++ ("_ssrNode" ++ "(" ++ (quote text ++ "" ++ "") ++ ")") ++ ";")
          ++ "") ++ "\n" ++ "\x7d" ++ "\n" := rfl
  have hchars : (Tree.literal text).print.toList =
      "function render() \x7b\n  return _ssrNode(".toList ++
        ('"' :: (text.toList.flatMap quoteChar ++ '"' :: [')', ';', '\n', '\x7d', '\n'])) := by
    rw [hprint, quote]
    simp only [String.toList_append, List.append_assoc, String.toList_ofList, List.cons_append]
    rfl
  rw [hchars]
  exact reads_start
    (.cons (fun _ => ⟨_, rfl⟩) (fun start => readToken_quote start text _) reads_end)

end Lexer

/-- A literal function is read back as it is. -/
theorem parseFunction_literal (text : String) : ∃ arena root,
    parseFunction (Tree.literal text).print = .ok (arena, root) ∧
      arena.tree root = Tree.literal text := by
  obtain ⟨tokens, htokens, hkinds⟩ := Lexer.reads_literal text 0
  simp only [List.map_eq_cons_iff, List.map_eq_nil_iff] at hkinds
  obtain ⟨⟨_, _⟩, _, rfl, rfl, ⟨_, _⟩, _, rfl, rfl, ⟨_, _⟩, _, rfl, rfl, ⟨_, _⟩, _, rfl, rfl,
    ⟨_, _⟩, _, rfl, rfl, ⟨_, _⟩, _, rfl, rfl, ⟨_, _⟩, _, rfl, rfl, ⟨_, _⟩, _, rfl, rfl,
    ⟨_, _⟩, _, rfl, rfl, ⟨_, _⟩, _, rfl, rfl, ⟨_, _⟩, _, rfl, rfl, ⟨_, _⟩, _, rfl, rfl,
    ⟨_, _⟩, _, rfl, rfl, rfl⟩ := hkinds
  -- The parser sees only the kinds of the tokens, which do not depend on the text
  -- but in one place.
  refine ⟨⟨#[.ident Helper.markup.name, .str text, .call 0 [1], .ret (some 2),
    .function (some "render") [] [3]]⟩, 4, parseFunction_eq_ok_iff.mpr ⟨_, _, htokens, rfl⟩, rfl⟩

/-- The function that is made of a literal. -/
theorem print_pushLiteralFunction (text : String) :
    (Arena.empty.pushLiteralFunction text).2.print (Arena.empty.pushLiteralFunction text).1 =
      (Tree.literal text).print := rfl

end Script

end RenderFold
