import RenderFold.Proofs.Script.Grammar
import RenderFold.Proofs.Script.Literals

/-!
# The Tokens of a Printed Tree

The text of a printed tree is cut into the tokens that one would write down
for the tree itself. A text, an identifier or a mark is read back whatever
comes before it. An identifier or a number ends only where a character comes
that cannot belong to it, so every lemma asks what the first character after
the tree is: never part of an identifier, and a point only after something
whose members can be named.

## Main definitions

* `Printer.tokens`: The tokens of a tree.
* `Lexer.Closes`: Characters that end what was written before them.

## Theorems

* `Lexer.spelled`: An expression is cut into its tokens.
* `Lexer.reads_print`: So is a function that is printed.
-/

namespace RenderFold

namespace Script

/-- The mark of an operator. -/
def BinaryOp.punct : BinaryOp → Punct
  | add => .plus
  | strictEq => .strictEq
  | strictNotEq => .strictNotEq
  | and => .andAnd
  | or => .orOr

namespace Printer

/-- The token of a property key. -/
def keyToken (name : String) : TokenKind := if isIdentifier name then .ident name else .str name

/-- The tokens of parameter names. -/
def paramTokens : List String → List TokenKind
  | [] => []
  | [name] => [.ident name]
  | name :: next :: rest => .ident name :: .punct .comma :: paramTokens (next :: rest)

mutual

/-- The tokens of a tree in a place that asks for `tightness`. -/
def tokens (tightness : Nat) : Tree → List TokenKind
  | .mk node =>
    if precedence node < tightness then
      .punct .leftParen :: (bareTokens node ++ [.punct .rightParen])
    else bareTokens node
termination_by structural t => t

/-- The tokens of a node without parentheses around it. -/
def bareTokens : Node Tree → List TokenKind
  | .function name names body =>
    .ident "function" :: (name.toList.map .ident ++ .punct .leftParen :: (paramTokens names ++
      .punct .rightParen :: .punct .leftBrace :: (lineTokens body ++ [.punct .rightBrace])))
  | .ret none => [.ident "return", .punct .semi]
  | .ret (some argument) => .ident "return" :: (tokens 0 argument ++ [.punct .semi])
  | .declare binding name init =>
    .ident binding.keyword :: .ident name :: .punct .assign ::
      (tokens arrowLevel init ++ [.punct .semi])
  | .branch test consequent none =>
    .ident "if" :: .punct .leftParen :: (tokens 0 test ++ .punct .rightParen ::
      .punct .leftBrace :: (lineTokens consequent ++ [.punct .rightBrace]))
  | .branch test consequent (some alternate) =>
    .ident "if" :: .punct .leftParen :: (tokens 0 test ++ .punct .rightParen ::
      .punct .leftBrace :: (lineTokens consequent ++ .punct .rightBrace :: .ident "else" ::
        .punct .leftBrace :: (lineTokens alternate ++ [.punct .rightBrace])))
  | .discard argument => tokens 0 argument ++ [.punct .semi]
  | .str text => [.str text]
  | .num bits => [.num (Float.ofBits bits)]
  | .bool value => [.ident (if value then "true" else "false")]
  | .null | .hole => [.ident "null"]
  | .ident name => [.ident name]
  | .member target property =>
    tokens postfixLevel target ++ [.punct .dot, .ident property]
  | .index target position =>
    tokens postfixLevel target ++ .punct .leftSquare :: (tokens 0 position ++
      [.punct .rightSquare])
  | .call callee arguments =>
    tokens postfixLevel callee ++ .punct .leftParen :: (itemTokens arguments ++
      [.punct .rightParen])
  | .array elements => .punct .leftSquare :: (itemTokens elements ++ [.punct .rightSquare])
  | .object properties => .punct .leftBrace :: (entryTokens properties ++ [.punct .rightBrace])
  | .not argument => .punct .bang :: tokens notLevel argument
  | .binary op left right =>
    tokens op.precedence left ++ .punct op.punct :: tokens (op.precedence + 1) right
  | .conditional test consequent alternate =>
    tokens (conditionalLevel + 1) test ++ .punct .question :: (tokens arrowLevel consequent ++
      .punct .colon :: tokens arrowLevel alternate)
  | .arrow names body =>
    .punct .leftParen :: (paramTokens names ++ .punct .rightParen :: .punct .arrow ::
      (if isObject body then .punct .leftParen :: (tokens 0 body ++ [.punct .rightParen])
        else tokens arrowLevel body))
termination_by structural node => node

/-- The tokens of items with commas between them. -/
def itemTokens : List Tree → List TokenKind
  | [] => []
  | item :: rest =>
    tokens arrowLevel item ++ ((if rest.isEmpty then [] else [.punct .comma]) ++ itemTokens rest)
termination_by structural ts => ts

/-- The tokens of properties with commas between them. -/
def entryTokens : List (String × Tree) → List TokenKind
  | [] => []
  | (name, value) :: rest =>
    keyToken name :: .punct .colon :: (tokens arrowLevel value ++
      ((if rest.isEmpty then [] else [.punct .comma]) ++ entryTokens rest))
termination_by structural properties => properties

/-- The tokens of statements. -/
def lineTokens : List Tree → List TokenKind
  | [] => []
  | t :: rest => tokens 0 t ++ lineTokens rest
termination_by structural ts => ts

end

end Printer

/-- The tokens that an expression begins with. -/
def begins : TokenKind → Bool
  | .ident name => !(["function", "return", "const", "let", "if", "else"].contains name)
  | .str _ | .num _ => true
  | .punct mark => [.leftParen, .leftSquare, .leftBrace, .bang].contains mark
  | .eof => false

open Printer in
theorem tokens_begin {t : Tree} (h : Expression t) (tightness : Nat) :
    ∃ kind rest, tokens tightness t = kind :: rest ∧ begins kind = true := by
  -- What is in parentheses begins with one, and what is not begins with its first part.
  have hplace : ∀ {node : Node Tree} {tightness : Nat},
      (∃ kind rest, bareTokens node = kind :: rest ∧ begins kind = true) →
        ∃ kind rest, tokens tightness (.mk node) = kind :: rest ∧ begins kind = true := by
    intro node tightness hbare
    rw [tokens]
    split
    · exact ⟨_, _, rfl, rfl⟩
    · exact hbare
  have hfirst : ∀ {first rest : List TokenKind},
      (∃ kind later, first = kind :: later ∧ begins kind = true) →
        ∃ kind later, first ++ rest = kind :: later ∧ begins kind = true := by
    rintro first rest ⟨kind, later, rfl, hbegins⟩
    exact ⟨kind, later ++ rest, rfl, hbegins⟩
  induction h generalizing tightness with
  | bool value => exact hplace ⟨_, _, rfl, by cases value <;> rfl⟩
  | ident hname =>
      refine hplace ⟨_, _, rfl, ?_⟩
      have hkeyword := hname.2
      unfold isKeyword keywords at hkeyword
      unfold begins
      simp_all
  | member htarget hproperty ih => exact hplace (hfirst (ih _))
  | index htarget hposition ih => exact hplace (hfirst (ih _))
  | call hcallee harguments ih => exact hplace (hfirst (ih _))
  | binary hleft hright ih => exact hplace (hfirst (ih _))
  | conditional htest hconsequent halternate ih => exact hplace (hfirst (ih _))
  | _ => exact hplace ⟨_, _, rfl, rfl⟩

namespace Lexer

variable {text rest : List Char} {kinds : List TokenKind} {name : String}

theorem tokensFrom_congr {offset offset' : Nat} {text text' : List Char}
    (h : skipTrivia offset .blank text = skipTrivia offset' .blank text') :
    tokensFrom offset text = tokensFrom offset' text' := by
  rw [tokensFrom_eq, tokensFrom_eq, h]

theorem skipTrivia_blank (offset : Nat) (text : List Char) :
    skipTrivia offset .blank (' ' :: text) = skipTrivia (offset + 1) .blank text := rfl

theorem skipTrivia_newline (offset : Nat) (text : List Char) :
    skipTrivia offset .blank ('\n' :: text) = skipTrivia (offset + 1) .blank text := rfl

theorem Reads.blank (h : Reads text kinds) : Reads (' ' :: text) kinds := by
  intro offset
  rw [tokensFrom_congr (skipTrivia_blank offset text)]
  exact h (offset + 1)

theorem Reads.newline (h : Reads text kinds) : Reads ('\n' :: text) kinds := by
  intro offset
  rw [tokensFrom_congr (skipTrivia_newline offset text)]
  exact h (offset + 1)

theorem Reads.lineBreak (level : Nat) (h : Reads text kinds) :
    Reads ((lineBreak level).toList ++ text) kinds := by
  have hchars : (Script.lineBreak level).toList = '\n' :: List.replicate (2 * level) ' ' := by
    unfold Script.lineBreak
    simp only [String.toList_append, String.toList_ofList]
    rfl
  rw [hchars]
  refine Reads.newline ?_
  induction 2 * level with
  | zero => exact h
  | succ n ih => exact Reads.blank ih

/-- What comes next cannot belong to an identifier, and is a point only if
    that is asked for. -/
def Closes (point : Prop) (text : List Char) : Prop :=
  ∀ c ∈ text.head?, isIdentPart c = false ∧ (c = '.' → point)

theorem Closes.mono {point other : Prop} (h : Closes point text) (himp : point → other) :
    Closes other text :=
  fun c hc => ⟨(h c hc).1, fun hpoint => himp ((h c hc).2 hpoint)⟩

theorem Closes.weaken {point : Prop} (h : Closes point text) : Closes True text :=
  h.mono fun _ => trivial

theorem Closes.head {point : Prop} {c : Char} (hpart : isIdentPart c = false) (hc : c ≠ '.') :
    Closes point (c :: rest) := by
  intro c' h
  cases h
  exact ⟨hpart, fun h => absurd h hc⟩

/-- The longest run of characters ends where one comes that is not wanted. -/
theorem span_append {p : Char → Bool} (hrun : ∀ c ∈ text, p c = true)
    (hrest : ∀ c ∈ rest.head?, p c = false) :
    (text ++ rest).takeWhile p = text ∧ (text ++ rest).dropWhile p = rest := by
  rw [List.takeWhile_append_of_pos hrun, List.dropWhile_append_of_pos hrun]
  cases rest with
  | nil => exact ⟨List.append_nil text, rfl⟩
  | cons c rest =>
      have hc : ¬ p c = true := ne_true_of_eq_false (hrest c rfl)
      rw [List.takeWhile_cons_of_neg hc, List.dropWhile_cons_of_neg hc, List.append_nil]
      exact ⟨rfl, rfl⟩

theorem skipTrivia_token {c : Char} (h : c ∉ ['/', ' ', '\t', '\n', '\r']) (offset : Nat)
    (text : List Char) :
    skipTrivia offset .blank (c :: text) = .ok ⟨(), offset, c :: text⟩ := by
  simp only [List.mem_cons, List.not_mem_nil, or_false, not_or] at h
  obtain ⟨hslash, hblank, htab, hline, hreturn⟩ := h
  rw [skipTrivia]
  · simp only [hblank, htab, hline, hreturn, decide_false, Bool.or_self, Bool.false_eq_true,
      if_false]
  · exact fun _ h => absurd h hslash
  · exact fun _ h => absurd h hslash

theorem Reads.token {c : Char} {kind : TokenKind} (hc : c ∉ ['/', ' ', '\t', '\n', '\r'])
    (hread : ∀ start, ∃ next, readToken start c text = .ok ⟨kind, next, rest⟩)
    (h : Reads rest kinds) : Reads (c :: text) (kind :: kinds) :=
  .cons (fun offset => ⟨offset, skipTrivia_token hc offset text⟩) hread h

theorem isDigit_of_isIdentStart {c : Char} (h : isIdentStart c = true) : c.isDigit = false := by
  unfold isIdentStart at h
  simp only [Bool.or_eq_true, decide_eq_true_eq] at h
  rcases h with (h | rfl) | rfl
  · unfold Char.isAlpha Char.isUpper Char.isLower at h
    unfold Char.isDigit
    grind
  · rfl
  · rfl

/-- An identifier is read back. -/
theorem reads_ident (hname : Printer.isIdentifier name = true) (hcloses : Closes True rest)
    (h : Reads rest kinds) :
    Reads (name.toList ++ rest) (.ident name :: kinds) := by
  unfold Printer.isIdentifier at hname
  split at hname
  · cases hname
  · next c run hchars =>
      rw [Bool.and_eq_true, List.all_eq_true] at hname
      obtain ⟨hstart, hrun⟩ := hname
      have hne {d : Char} (hd : isIdentStart d = false) : c ≠ d := by
        rintro rfl
        exact Bool.false_ne_true (hd.symm.trans hstart)
      have hall : ∀ d ∈ c :: run, isIdentPart d = true := by
        intro d hd
        rcases List.mem_cons.mp hd with rfl | hd
        · unfold isIdentPart
          rw [hstart, Bool.true_or]
        · exact hrun d hd
      obtain ⟨htake, hdrop⟩ := span_append hall fun d hd => (hcloses d hd).1
      rw [hchars]
      refine .token ?_ (fun start => ⟨start + (c :: run).length, ?_⟩) h
      · simp only [List.mem_cons, List.not_mem_nil, or_false, not_or]
        exact ⟨hne rfl, hne rfl, hne rfl, hne rfl, hne rfl⟩
      · have hquote : ¬ (decide (c = '"') || decide (c = '\'')) = true := by
          simp only [hne (d := '"') rfl, hne (d := '\'') rfl, decide_false, Bool.or_self,
            Bool.false_eq_true, not_false_eq_true]
        unfold readToken
        rw [if_neg hquote, if_neg (hne rfl), isDigit_of_isIdentStart hstart,
          if_neg Bool.false_ne_true, if_pos hstart]
        change Except.ok (readIdent start (c :: run ++ rest)) = _
        unfold readIdent
        dsimp only
        rw [htake, hdrop, ← hchars, String.ofList_toList]

/-- A text is read back. -/
theorem reads_quote (t : String) (h : Reads rest kinds) :
    Reads ((quote t).toList ++ rest) (.str t :: kinds) := by
  rw [toList_quote_append]
  exact .token (by decide) (fun start => readToken_quote start t rest) h

/-- A number is read back, if no point follows it. -/
theorem reads_number {bits : UInt64} (hbits : Literal bits)
    (hfinite : (Decimal.Exact.ofFloat? (Float.ofBits bits)).isSome = true)
    (hcloses : Closes False rest) (h : Reads rest kinds) :
    Reads ((Printer.number (Float.ofBits bits)).toList ++ rest)
      (.num (Float.ofBits bits) :: kinds) := by
  obtain ⟨n, k, hspells, hvalue⟩ := number_spells hbits hfinite
  obtain ⟨c, run, hchars, hdigit⟩ := hspells.starts
  have hrest : ∀ d ∈ rest.head?, isNumberPart d = false := by
    intro d hd
    obtain ⟨hpart, hpoint⟩ := hcloses d hd
    unfold isIdentPart at hpart
    unfold isNumberPart
    rw [Bool.or_eq_false_iff] at hpart
    rw [hpart.2, Bool.false_or, decide_eq_false_iff_not]
    exact hpoint
  obtain ⟨htake, hdrop⟩ := span_append hspells.parts hrest
  have hne {d : Char} (hd : d.isDigit = false) : c ≠ d := by
    rintro rfl
    exact Bool.false_ne_true (hd.symm.trans hdigit)
  rw [hchars] at htake hdrop ⊢
  refine .token ?_ (fun start => ⟨start + (c :: run).length, ?_⟩) h
  · simp only [List.mem_cons, List.not_mem_nil, or_false, not_or]
    exact ⟨hne rfl, hne rfl, hne rfl, hne rfl, hne rfl⟩
  · have hquote : ¬ (decide (c = '"') || decide (c = '\'')) = true := by
      simp only [hne (d := '"') rfl, hne (d := '\'') rfl, decide_false, Bool.or_self,
        Bool.false_eq_true, not_false_eq_true]
    unfold readToken
    rw [if_neg hquote, if_neg (hne rfl), if_pos hdigit]
    change readNumber start (c :: run ++ rest) = _
    unfold readNumber
    dsimp only
    rw [htake, hdrop, ← hchars, hspells.value, hvalue]

section Trees

open Printer

/-- Something that a point may follow. -/
def Pointed (tightness : Nat) (t : Tree) : Prop :=
  precedence t.node < tightness ∨ postfixLevel ≤ precedence t.node ∧ t.isNumber = false

/-- A tree in its place is cut into its tokens, whatever comes after it. -/
def Spelled (tightness : Nat) (t : Tree) : Prop :=
  ∀ ⦃level rest kinds⦄, Closes (Pointed tightness t) rest → Reads rest kinds →
    Reads ((expression level tightness t).toList ++ rest) (tokens tightness t ++ kinds)

variable {tightness : Nat} {node : Node Tree}

theorem Spelled.of_bare (h : ∀ ⦃level rest kinds⦄,
    Closes (postfixLevel ≤ precedence node ∧ (Tree.mk node).isNumber = false) rest →
      Reads rest kinds → Reads ((bare level node).toList ++ rest) (bareTokens node ++ kinds)) :
    Spelled tightness (.mk node) := by
  intro level rest kinds hcloses hread
  rw [expression, tokens]
  by_cases hparens : precedence node < tightness
  · rw [if_pos hparens, if_pos hparens]
    simp only [String.toList_append, String.reduceToList, List.append_assoc, List.cons_append,
      List.nil_append]
    refine .token (by decide) (fun _ => ⟨_, rfl⟩) (h (Closes.head rfl (by decide)) ?_)
    exact .token (by decide) (fun _ => ⟨_, rfl⟩) hread
  · rw [if_neg hparens, if_neg hparens]
    exact h (fun c hc => ⟨(hcloses c hc).1, fun hpoint =>
      ((hcloses c hc).2 hpoint).resolve_left hparens⟩) hread

/-- After something that binds more loosely, no point follows. -/
theorem Spelled.of_loose (hloose : precedence node < postfixLevel)
    (h : ∀ ⦃level rest kinds⦄, Closes False rest → Reads rest kinds →
      Reads ((bare level node).toList ++ rest) (bareTokens node ++ kinds)) :
    Spelled tightness (.mk node) :=
  .of_bare fun _ _ _ hcloses hread => h
    (fun c hc => ⟨(hcloses c hc).1, fun hpoint =>
      Nat.not_le_of_lt hloose ((hcloses c hc).2 hpoint).1⟩) hread

theorem reads_params {names : List String} (hnames : ∀ name ∈ names, isIdentifier name = true)
    (hcloses : Closes False rest) (h : Reads rest kinds) :
    Reads ((Printer.params names).toList ++ rest) (paramTokens names ++ kinds) := by
  unfold Printer.params
  induction names with
  | nil => exact h
  | cons name names ih =>
      have hname := hnames name List.mem_cons_self
      cases names with
      | nil => exact reads_ident hname hcloses.weaken h
      | cons next names =>
          rw [String.intercalate_cons_cons]
          simp only [String.toList_append, String.reduceToList, List.append_assoc, List.cons_append,
            List.nil_append, paramTokens]
          refine reads_ident hname (Closes.head rfl (by decide)) ?_
          refine .token (by decide) (fun _ => ⟨_, rfl⟩) (.blank ?_)
          exact ih fun name hmem => hnames name (List.mem_cons_of_mem _ hmem)

theorem closes_separator {α : Type} (items : List α) {point : Prop} {text : List Char}
    (hcloses : Closes point rest) (htext : items = [] → text = rest) :
    Closes point ((if items.isEmpty then "" else ", ").toList ++ text) := by
  cases items with
  | nil =>
      cases htext rfl
      exact hcloses
  | cons item items =>
      rw [if_neg (by rw [List.isEmpty_cons]; exact Bool.false_ne_true)]
      exact Closes.head rfl (by decide)

theorem reads_separator {α : Type} (items : List α) (h : Reads text kinds) :
    Reads ((if items.isEmpty then "" else ", ").toList ++ text)
      ((if items.isEmpty then [] else [.punct .comma]) ++ kinds) := by
  cases items with
  | nil => exact h
  | cons item items =>
      rw [if_neg (by rw [List.isEmpty_cons]; exact Bool.false_ne_true),
        if_neg (by rw [List.isEmpty_cons]; exact Bool.false_ne_true)]
      exact .token (by decide) (fun _ => ⟨_, rfl⟩) h.blank

theorem reads_items {level : Nat} {ts : List Tree} (hitems : ∀ t ∈ ts, Spelled arrowLevel t)
    (hcloses : ∀ point, Closes point rest) (h : Reads rest kinds) :
    Reads ((items level ts).toList ++ rest) (itemTokens ts ++ kinds) := by
  induction ts with
  | nil => exact h
  | cons t ts ih =>
      simp only [items, itemTokens, String.toList_append, List.append_assoc]
      refine hitems t List.mem_cons_self (closes_separator ts (hcloses _) ?_) (reads_separator ts ?_)
      · rintro rfl
        rfl
      · exact ih fun t ht => hitems t (List.mem_cons_of_mem _ ht)

theorem reads_key (name : String) (h : Reads rest kinds) :
    Reads ((key name).toList ++ ':' :: ' ' :: rest) (keyToken name :: .punct .colon :: kinds) := by
  have hcolon : Reads (':' :: ' ' :: rest) (.punct .colon :: kinds) :=
    .token (by decide) (fun _ => ⟨_, rfl⟩) h.blank
  unfold key keyToken
  split
  · next hname => exact reads_ident hname (Closes.head rfl (by decide)) hcolon
  · exact reads_quote name hcolon

theorem reads_entries {level : Nat} {properties : List (String × Tree)}
    (hvalues : ∀ property ∈ properties, Spelled arrowLevel property.2)
    (hcloses : ∀ point, Closes point rest) (h : Reads rest kinds) :
    Reads ((entries level properties).toList ++ rest) (entryTokens properties ++ kinds) := by
  induction properties with
  | nil => exact h
  | cons property properties ih =>
      obtain ⟨name, value⟩ := property
      simp only [entries, entryTokens, String.toList_append, String.reduceToList, List.append_assoc,
        List.cons_append, List.nil_append]
      refine reads_key name (hvalues _ List.mem_cons_self
        (closes_separator properties (hcloses _) ?_) (reads_separator properties ?_))
      · rintro rfl
        rfl
      · exact ih fun property hmem => hvalues property (List.mem_cons_of_mem _ hmem)

/-- An equals sign begins one of three tokens. -/
theorem readPunct_equals (start : Nat) (text : List Char) : ∃ mark next rest,
    readPunct start '=' text = .ok ⟨.punct mark, next, rest⟩ ∧ begins (.punct mark) = false := by
  by_cases harrow : ∃ rest, text = '>' :: rest
  · obtain ⟨rest, rfl⟩ := harrow
    exact ⟨_, _, _, rfl, rfl⟩
  by_cases hequals : ∃ rest, text = '=' :: '=' :: rest
  · obtain ⟨rest, rfl⟩ := hequals
    exact ⟨_, _, _, rfl, rfl⟩
  refine ⟨.assign, start + 1, text, ?_, rfl⟩
  rw [readPunct]
  · exact fun rest h => harrow ⟨rest, h⟩
  · exact fun rest h => hequals ⟨rest, h⟩

/-- No expression begins with an equals sign. -/
theorem Reads.ne_equals {kind : TokenKind} (h : Reads text (kind :: kinds))
    (hbegins : begins kind = true) (rest : List Char) : text ≠ '=' :: rest := by
  rintro rfl
  obtain ⟨tokens, htokens, hkinds⟩ := h 0
  obtain ⟨mark, next, later, hread, hmark⟩ := readPunct_equals 0 rest
  have hskip := skipTrivia_token (c := '=') (by decide) 0 rest
  unfold tokensFrom at htokens
  split at htokens
  · cases htokens
  · next h => cases hskip.symm.trans h
  · next h =>
      cases hskip.symm.trans h
      split at htokens
      · cases htokens
      · next h =>
          cases hread.symm.trans h
          split at htokens
          · cases htokens
          · cases htokens
            cases hkinds
            exact Bool.false_ne_true (hmark.symm.trans hbegins)

/-- A negation is not taken for an inequality. -/
theorem Reads.bang {kind : TokenKind} (h : Reads text (kind :: kinds))
    (hbegins : begins kind = true) : Reads ('!' :: text) (.punct .bang :: kind :: kinds) := by
  refine .token (by decide) (fun start => ⟨start + 1, ?_⟩) h
  change readPunct start '!' text = _
  rw [readPunct]
  exact fun rest heq => h.ne_equals hbegins _ heq

theorem reads_mark (op : BinaryOp) (h : Reads rest kinds) :
    Reads (op.mark.toList ++ ' ' :: rest) (.punct op.punct :: kinds) := by
  cases op <;> exact .token (by decide) (fun _ => ⟨_, rfl⟩) h.blank

/-- An expression is cut into its tokens. -/
theorem spelled {t : Tree} (h : Expression t) (hplain : t.Plain) (tightness : Nat) :
    Spelled tightness t := by
  induction h generalizing tightness with
  | str text =>
      refine .of_bare fun level rest kinds _ hread => ?_
      exact reads_quote text hread
  | @num bits hbits =>
      refine .of_bare fun level rest kinds hcloses hread => ?_
      refine reads_number hbits hplain.here (fun c hc => ⟨(hcloses c hc).1, fun hpoint => ?_⟩) hread
      exact Bool.false_ne_true ((hcloses c hc).2 hpoint).2.symm
  | bool value =>
      refine .of_bare fun level rest kinds hcloses hread => ?_
      cases value with
      | false => exact @reads_ident _ _ "false" (by decide) hcloses.weaken hread
      | true => exact @reads_ident _ _ "true" (by decide) hcloses.weaken hread
  | null =>
      refine .of_bare fun level rest kinds hcloses hread => ?_
      exact @reads_ident _ _ "null" (by decide) hcloses.weaken hread
  | ident hname =>
      refine .of_bare fun level rest kinds hcloses hread => ?_
      exact reads_ident hname.1 hcloses.weaken hread
  | @member target property htarget hproperty ih =>
      refine .of_bare fun level rest kinds hcloses hread => ?_
      simp only [bare, bareTokens, String.toList_append, String.reduceToList, List.append_assoc,
        List.cons_append, List.nil_append]
      refine ih (hplain.part List.mem_cons_self) postfixLevel (fun c hc => ?_) ?_
      -- The one place where a point follows.
      · cases hc
        refine ⟨rfl, fun _ => ?_⟩
        have htarget : target.isNumber = false := by
          have hnode := hplain.here
          rwa [Node.isPlain, Bool.not_eq_true'] at hnode
        rcases Nat.lt_or_ge (precedence target.node) postfixLevel with hlt | hge
        · exact Or.inl hlt
        · exact Or.inr ⟨hge, htarget⟩
      · exact .token (by decide) (fun _ => ⟨_, rfl⟩) (reads_ident hproperty hcloses.weaken hread)
  | @index target position htarget hposition ihtarget ihposition =>
      refine .of_bare fun level rest kinds hcloses hread => ?_
      simp only [bare, bareTokens, String.toList_append, String.reduceToList, List.append_assoc,
        List.cons_append, List.nil_append]
      refine ihtarget (hplain.part List.mem_cons_self) _ (Closes.head rfl (by decide)) ?_
      refine .token (by decide) (fun _ => ⟨_, rfl⟩) ?_
      refine ihposition (hplain.part (List.mem_cons_of_mem _ List.mem_cons_self)) _
        (Closes.head rfl (by decide)) ?_
      exact .token (by decide) (fun _ => ⟨_, rfl⟩) hread
  | @call callee arguments hcallee harguments ihcallee iharguments =>
      refine .of_bare fun level rest kinds hcloses hread => ?_
      simp only [bare, bareTokens, String.toList_append, String.reduceToList, List.append_assoc,
        List.cons_append, List.nil_append]
      refine ihcallee (hplain.part List.mem_cons_self) _ (Closes.head rfl (by decide)) ?_
      refine .token (by decide) (fun _ => ⟨_, rfl⟩) ?_
      refine reads_items (fun t ht => iharguments t ht
        (hplain.part (List.mem_cons_of_mem _ ht)) _) (fun _ => Closes.head rfl (by decide)) ?_
      exact .token (by decide) (fun _ => ⟨_, rfl⟩) hread
  | @array elements helements ih =>
      refine .of_bare fun level rest kinds hcloses hread => ?_
      simp only [bare, bareTokens, String.toList_append, String.reduceToList, List.append_assoc,
        List.cons_append, List.nil_append]
      refine .token (by decide) (fun _ => ⟨_, rfl⟩) ?_
      refine reads_items (fun t ht => ih t ht (hplain.part ht) _)
        (fun _ => Closes.head rfl (by decide)) ?_
      exact .token (by decide) (fun _ => ⟨_, rfl⟩) hread
  | @object properties hproperties ih =>
      refine .of_bare fun level rest kinds hcloses hread => ?_
      simp only [bare, bareTokens, String.toList_append, String.reduceToList, List.append_assoc,
        List.cons_append, List.nil_append]
      refine .token (by decide) (fun _ => ⟨_, rfl⟩) ?_
      refine reads_entries (fun property hmem => ih property hmem
        (hplain.part (List.mem_map_of_mem hmem)) _) (fun _ => Closes.head rfl (by decide)) ?_
      exact .token (by decide) (fun _ => ⟨_, rfl⟩) hread
  | @not argument hargument ih =>
      refine .of_loose (by change 7 < 8; omega) fun level rest kinds hcloses hread => ?_
      simp only [bare, bareTokens, String.toList_append, String.reduceToList, List.cons_append,
        List.nil_append]
      have hbelow : Reads ((expression level notLevel argument).toList ++ rest)
          (tokens notLevel argument ++ kinds) :=
        ih (hplain.part List.mem_cons_self) notLevel (hcloses.mono False.elim) hread
      obtain ⟨kind, later, htokens, hbegins⟩ := tokens_begin hargument notLevel
      rw [htokens] at hbelow ⊢
      exact hbelow.bang hbegins
  | @binary op left right hleft hright ihleft ihright =>
      have hloose : op.precedence < postfixLevel := by cases op <;> decide
      refine .of_loose hloose fun level rest kinds hcloses hread => ?_
      simp only [bare, bareTokens, String.toList_append, String.reduceToList, List.append_assoc,
        List.cons_append, List.nil_append]
      refine ihleft (hplain.part List.mem_cons_self) _ (Closes.head rfl (by decide)) (.blank ?_)
      exact reads_mark op (ihright (hplain.part (List.mem_cons_of_mem _ List.mem_cons_self)) _
        (hcloses.mono False.elim) hread)
  | @conditional test consequent alternate htest hconsequent halternate ihtest ihconsequent
      ihalternate =>
      refine .of_loose (by change 2 < 8; omega) fun level rest kinds hcloses hread => ?_
      simp only [bare, bareTokens, String.toList_append, String.reduceToList, List.append_assoc,
        List.cons_append, List.nil_append]
      refine ihtest (hplain.part List.mem_cons_self) _ (Closes.head rfl (by decide)) (.blank ?_)
      refine .token (by decide) (fun _ => ⟨_, rfl⟩) (.blank ?_)
      refine ihconsequent (hplain.part (List.mem_cons_of_mem _ List.mem_cons_self)) _
        (Closes.head rfl (by decide)) (.blank ?_)
      refine .token (by decide) (fun _ => ⟨_, rfl⟩) (.blank ?_)
      exact ihalternate
        (hplain.part (List.mem_cons_of_mem _ (List.mem_cons_of_mem _ List.mem_cons_self))) _
        (hcloses.mono False.elim) hread
  | @arrow params body hparams hbody ih =>
      refine .of_loose (by change 1 < 8; omega) fun level rest kinds hcloses hread => ?_
      simp only [bare, bareTokens, String.toList_append, String.reduceToList, List.append_assoc,
        List.cons_append, List.nil_append]
      refine .token (by decide) (fun _ => ⟨_, rfl⟩) ?_
      refine reads_params (fun name hname => (hparams name hname).1)
        (Closes.head rfl (by decide)) ?_
      refine .token (by decide) (fun _ => ⟨_, rfl⟩) (.blank ?_)
      refine .token (by decide) (fun _ => ⟨_, rfl⟩) (.blank ?_)
      split
      · simp only [String.toList_append, String.reduceToList, List.append_assoc, List.cons_append,
          List.nil_append]
        refine .token (by decide) (fun _ => ⟨_, rfl⟩) ?_
        refine ih (hplain.part List.mem_cons_self) _ (Closes.head rfl (by decide)) ?_
        exact .token (by decide) (fun _ => ⟨_, rfl⟩) hread
      · exact ih (hplain.part List.mem_cons_self) _ (hcloses.mono False.elim) hread

/-- A statement in its place is cut into its tokens, whatever comes after
    it. -/
def Lines (t : Tree) : Prop := ∀ ⦃level rest kinds⦄, Reads rest kinds →
  Reads ((statement level t).toList ++ rest) (tokens 0 t ++ kinds)

theorem reads_lines {level : Nat} {ts : List Tree} (hlines : ∀ t ∈ ts, Lines t)
    (h : Reads rest kinds) : Reads ((lines level ts).toList ++ rest) (lineTokens ts ++ kinds) := by
  induction ts with
  | nil => exact h
  | cons t ts ih =>
      simp only [lines, lineTokens, String.toList_append, List.append_assoc]
      exact .lineBreak level (hlines t List.mem_cons_self
        (ih fun t ht => hlines t (List.mem_cons_of_mem _ ht)))

/-- Statements between braces. -/
theorem reads_block {level : Nat} {ts : List Tree} (hlines : ∀ t ∈ ts, Lines t)
    (h : Reads rest kinds) :
    Reads ('\x7b' :: ((lines (level + 1) ts).toList ++
      ((Script.lineBreak level).toList ++ '\x7d' :: rest)))
      (.punct .leftBrace :: (lineTokens ts ++ .punct .rightBrace :: kinds)) := by
  refine .token (by decide) (fun _ => ⟨_, rfl⟩) (reads_lines hlines (.lineBreak level ?_))
  exact .token (by decide) (fun _ => ⟨_, rfl⟩) h

/-- A statement is cut into its tokens. -/
theorem spelledLine {t : Tree} (h : Statement t) (hplain : t.Plain) : Lines t := by
  induction h with
  | leave =>
      intro level rest kinds hread
      change Reads ((bare level (.ret none)).toList ++ rest) (bareTokens (.ret none) ++ kinds)
      simp only [bare, bareTokens, String.reduceToList, List.cons_append, List.nil_append]
      refine .token (by decide) (fun _ => ⟨_, rfl⟩) ?_
      exact .token (by decide) (fun _ => ⟨_, rfl⟩) hread
  | @ret argument hargument =>
      intro level rest kinds hread
      change Reads ((bare level (.ret (some argument))).toList ++ rest)
        (bareTokens (.ret (some argument)) ++ kinds)
      simp only [bare, bareTokens, String.toList_append, String.reduceToList, List.append_assoc,
        List.cons_append, List.nil_append]
      refine .token (by decide) (fun _ => ⟨_, rfl⟩) (.blank ?_)
      refine spelled hargument (hplain.part List.mem_cons_self) 0 (Closes.head rfl (by decide)) ?_
      exact .token (by decide) (fun _ => ⟨_, rfl⟩) hread
  | @declare binding name init hname hinit =>
      intro level rest kinds hread
      change Reads ((bare level (.declare binding name init)).toList ++ rest)
        (bareTokens (.declare binding name init) ++ kinds)
      have hkeyword : isIdentifier binding.keyword = true := by cases binding <;> decide
      simp only [bare, bareTokens, String.toList_append, String.reduceToList, List.append_assoc,
        List.cons_append, List.nil_append]
      refine reads_ident hkeyword (Closes.head rfl (by decide)) (.blank ?_)
      refine reads_ident hname.1 (Closes.head rfl (by decide)) (.blank ?_)
      refine .token (by decide) (fun _ => ⟨_, rfl⟩) (.blank ?_)
      refine spelled hinit (hplain.part List.mem_cons_self) _ (Closes.head rfl (by decide)) ?_
      exact .token (by decide) (fun _ => ⟨_, rfl⟩) hread
  | @branch test consequent htest hconsequent ih =>
      intro level rest kinds hread
      change Reads ((bare level (.branch test consequent none)).toList ++ rest)
        (bareTokens (.branch test consequent none) ++ kinds)
      simp only [bare, bareTokens, String.toList_append, String.reduceToList, List.append_assoc,
        List.cons_append, List.nil_append]
      refine .token (by decide) (fun _ => ⟨_, rfl⟩) (.blank ?_)
      refine .token (by decide) (fun _ => ⟨_, rfl⟩) ?_
      refine spelled htest (hplain.part List.mem_cons_self) 0 (Closes.head rfl (by decide)) ?_
      refine .token (by decide) (fun _ => ⟨_, rfl⟩) (.blank ?_)
      refine reads_block (fun t ht => ih t ht (hplain.part ?_)) hread
      exact List.mem_cons_of_mem _ (List.mem_append_left _ ht)
  | @branchElse test consequent alternate htest hconsequent halternate ihconsequent ihalternate =>
      intro level rest kinds hread
      change Reads ((bare level (.branch test consequent (some alternate))).toList ++ rest)
        (bareTokens (.branch test consequent (some alternate)) ++ kinds)
      simp only [bare, bareTokens, String.toList_append, String.reduceToList, List.append_assoc,
        List.cons_append, List.nil_append]
      refine .token (by decide) (fun _ => ⟨_, rfl⟩) (.blank ?_)
      refine .token (by decide) (fun _ => ⟨_, rfl⟩) ?_
      refine spelled htest (hplain.part List.mem_cons_self) 0 (Closes.head rfl (by decide)) ?_
      refine .token (by decide) (fun _ => ⟨_, rfl⟩) (.blank ?_)
      refine reads_block (fun t ht => ihconsequent t ht (hplain.part ?_)) (.blank ?_)
      · exact List.mem_cons_of_mem _ (List.mem_append_left _ ht)
      refine .token (by decide) (fun _ => ⟨_, rfl⟩) (.blank ?_)
      refine reads_block (fun t ht => ihalternate t ht (hplain.part ?_)) hread
      exact List.mem_cons_of_mem _ (List.mem_append_right _ ht)
  | @discard argument hargument =>
      intro level rest kinds hread
      change Reads ((bare level (.discard argument)).toList ++ rest)
        (bareTokens (.discard argument) ++ kinds)
      simp only [bare, bareTokens, String.toList_append, String.reduceToList, List.append_assoc,
        List.cons_append, List.nil_append]
      refine spelled hargument (hplain.part List.mem_cons_self) 0 (Closes.head rfl (by decide)) ?_
      exact .token (by decide) (fun _ => ⟨_, rfl⟩) hread

/-- A printed function is cut into its tokens and an end mark. -/
theorem reads_print {t : Tree} (h : Function t) (hplain : t.Plain) :
    Reads t.print.toList (tokens 0 t ++ [.eof]) := by
  cases h with
  | @mk name params body hname hparams hbody =>
      change Reads ((bare 0 (.function name params body)) ++ "\n").toList
        (bareTokens (.function name params body) ++ [.eof])
      simp only [bare, bareTokens, String.toList_append, String.reduceToList, List.append_assoc,
        List.cons_append, List.nil_append]
      have hrest : Reads ('(' :: ((Printer.params params).toList ++ ')' :: ' ' :: '\x7b' ::
          ((lines (0 + 1) body).toList ++ ((Script.lineBreak 0).toList ++ ['\x7d', '\n']))))
          (.punct .leftParen :: (paramTokens params ++ .punct .rightParen :: .punct .leftBrace ::
            (lineTokens body ++ [.punct .rightBrace, .eof]))) := by
        refine .token (by decide) (fun _ => ⟨_, rfl⟩) ?_
        refine reads_params (fun name hname => (hparams name hname).1)
          (Closes.head rfl (by decide)) ?_
        refine .token (by decide) (fun _ => ⟨_, rfl⟩) (.blank ?_)
        refine reads_block (fun t ht => spelledLine (hbody t ht) (hplain.part ht)) ?_
        exact .newline (.nil fun _ => ⟨_, rfl⟩)
      refine .token (by decide) (fun _ => ⟨_, rfl⟩) (.blank ?_)
      cases name with
      | none => exact hrest
      | some name =>
          exact reads_ident (hname name rfl).1 (Closes.head rfl (by decide)) hrest

end Trees

end Lexer

end Script

end RenderFold
