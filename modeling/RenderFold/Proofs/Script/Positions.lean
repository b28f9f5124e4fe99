import RenderFold.Proofs.Script.Enclosed
import RenderFold.Proofs.Script.Quoted

/-!
# Where Tokens Stand

Offsets are byte lengths. A reader that begins at an offset takes some
characters from the front of the text and moves the offset on by as many bytes
as they have, so every offset lies between two characters. It looks at nothing
but the characters, so somewhere else it does the same with other offsets.

Reading can then be taken up again at any token: what stands there is cut into
that token and those that come after it. A token such as a quoted text, which
ends by itself, can be put in front of anything: it is one token more, and the
others are as many bytes further on as it has.

## Main definitions

* `Lexer.Within`: A reader that takes characters from the front.
* `Lexer.moved`: What is read from the same text somewhere else.
* `Lexer.Positioned`: Where the tokens of a text stand.

## Theorems

* `readToken_within`, `readToken_moved`: One token.
* `tokensFrom_moved`: All tokens, read somewhere else.
* `tokensFrom_token`: A token is cut off, and the rest is read after it.
* `tokensFrom_positioned`: Tokens stand in order, and each begins the rest.
* `tokenize_quote_append`: A quoted text in front of a source.
-/

namespace RenderFold

namespace Script

/-- The same token, `n` bytes further on. -/
def Token.moved (n : Nat) (token : Token) : Token := { token with offset := token.offset + n }

/-- The same error, `n` bytes further on. -/
def SyntaxError.moved (n : Nat) (e : SyntaxError) : SyntaxError := { e with offset := e.offset + n }

namespace Lexer

variable {α : Type} {start offset : Nat} {quote c : Char} {text front out rest : List Char}
  {trivia : Trivia} {result : Except SyntaxError (Read α)} {tokens : List Token}

/-- What is read from the same text, `n` bytes further on. -/
def moved (n : Nat) : Except SyntaxError (Read α) → Except SyntaxError (Read α)
  | .ok read => .ok { read with offset := read.offset + n }
  | .error e => .error (e.moved n)

/-- The same blanks and comments, `n` bytes further on. -/
def Trivia.moved (n : Nat) : Trivia → Trivia
  | .block start => .block (start + n)
  | trivia => trivia

/-- At `offset`, a reader takes characters from the front of the text. If it
    fails, it names a place that is not past the end. -/
def Within (offset : Nat) (text : List Char) : Except SyntaxError (Read α) → Prop
  | .ok read => ∃ front, text = front ++ read.rest ∧ read.offset = offset + String.utf8Len front
  | .error e => e.offset ≤ offset + String.utf8Len text

/-- What comes after some characters is read after them. -/
theorem Within.append (front : List Char) (h : Within (offset + String.utf8Len front) text result) :
    Within offset (front ++ text) result := by
  cases result with
  | error e =>
      unfold Within at h ⊢
      rw [String.utf8Len_append]
      omega
  | ok read =>
      obtain ⟨later, rfl, hoffset⟩ := h
      refine ⟨front ++ later, (List.append_assoc ..).symm, ?_⟩
      rw [hoffset, String.utf8Len_append]
      omega

theorem Within.cons (h : Within (offset + c.utf8Size) text result) :
    Within offset (c :: text) result :=
  .append [c] (by rwa [String.utf8Len_cons, String.utf8Len_nil, Nat.zero_add])

theorem skipTrivia_within (h : ∀ start, trivia = .block start → start ≤ offset) :
    Within offset text (skipTrivia offset trivia text) := by
  fun_induction skipTrivia offset trivia text with
  | case1 offset text ih => exact (ih fun _ h => by cases h).append ['/', '/']
  | case2 offset text ih =>
      refine (ih fun start h => ?_).append ['/', '*']
      cases h
      exact Nat.le_add_right _ _
  | case3 offset c text hline hblock hblank ih =>
      have hsize : c.utf8Size = 1 := by
        simp only [Bool.or_eq_true, decide_eq_true_eq, or_assoc] at hblank
        rcases hblank with rfl | rfl | rfl | rfl <;> rfl
      rw [← hsize] at ih ⊢
      exact (ih fun _ h => by cases h).cons
  | case4 => exact ⟨[], rfl, rfl⟩
  | case5 offset text ih => exact (ih fun _ h => by cases h).append ['\n']
  | case6 offset c text hbreak ih => exact (ih fun _ h => by cases h).cons
  | case7 offset start text ih => exact (ih fun _ h => by cases h).append ['*', '/']
  | case8 offset start c text hclose ih =>
      refine (ih fun start' heq => ?_).cons
      cases heq
      exact Nat.le_trans (h start rfl) (Nat.le_add_right _ _)
  | case9 offset start => exact h start rfl
  | case10 offset trivia hopen => exact ⟨[], rfl, rfl⟩

theorem skipTrivia_moved (n offset : Nat) (trivia : Trivia) (text : List Char) :
    skipTrivia (offset + n) (trivia.moved n) text = moved n (skipTrivia offset trivia text) := by
  fun_induction skipTrivia offset trivia text with
  | case1 offset text ih | case2 offset text ih | case5 offset text ih =>
      rw [← ih, Nat.add_right_comm]
      rfl
  | case3 offset c text hline hblock hblank ih =>
      rw [← ih, Nat.add_right_comm]
      change skipTrivia (offset + n) .blank (c :: text) = _
      rw [skipTrivia, if_pos hblank]
      · rfl
      · exact hline
      · exact hblock
  | case4 offset c text hline hblock hblank =>
      change skipTrivia (offset + n) .blank (c :: text) = _
      rw [skipTrivia, if_neg hblank]
      · rfl
      · exact hline
      · exact hblock
  | case6 offset c text hbreak ih =>
      rw [← ih, Nat.add_right_comm]
      change skipTrivia (offset + n) .line (c :: text) = _
      rw [skipTrivia]
      · rfl
      · exact hbreak
  | case7 offset start text ih =>
      rw [← ih, Nat.add_right_comm]
      rfl
  | case8 offset start c text hclose ih =>
      rw [← ih, Nat.add_right_comm]
      change skipTrivia (offset + n) (.block (start + n)) (c :: text) = _
      rw [skipTrivia]
      · rfl
      · exact hclose
  | case9 => rfl
  | case10 offset trivia hopen =>
      cases trivia with
      | blank | line => rfl
      | block start => exact absurd rfl (hopen start)

theorem readQuoted_within (hquote : quote.utf8Size = 1) (h : start ≤ offset) :
    Within offset text (readQuoted start quote out offset text) := by
  have hslash : ('\\').utf8Size = 1 := rfl
  have hu : ('u').utf8Size = 1 := rfl
  fun_induction readQuoted start quote out offset text with
  | case1 out offset => exact h
  | case2 | case5 =>
      unfold Within
      simp only [String.utf8Len_cons]
      omega
  | case3 out offset a b c d text code hcode hchar =>
      have hpos := fun c : Char => c.utf8Size_pos
      have ha := hpos a
      have hb := hpos b
      have hc := hpos c
      have hd := hpos d
      unfold Within
      simp only [String.utf8Len_cons]
      omega
  | case4 out offset a b c d text code hcode char hchar ih =>
      obtain ⟨w, x, y, z, ha, hb, hc, hd, -⟩ := escapeCode?_eq_some_iff.mp hcode
      have hlen : String.utf8Len ['\\', 'u', a, b, c, d] = 6 := utf8Len_code ha hb hc hd
      rw [← hlen] at ih ⊢
      exact (ih (Nat.le_trans h (Nat.le_add_right _ _))).append ['\\', 'u', a, b, c, d]
  | case6 out offset c text _ hc ih =>
      exact Within.cons (.cons (ih (Nat.le_trans h (by omega))))
  | case7 => exact Nat.le_trans h (Nat.le_add_right _ _)
  | case8 out offset text => exact ⟨[quote], rfl, by simp [String.utf8Len_cons, hquote]⟩
  | case9 => exact Nat.le_trans h (Nat.le_add_right _ _)
  | case10 out offset c text _ _ hescape hlone hne hbreak ih =>
      exact (ih (Nat.le_trans h (Nat.le_add_right _ _))).cons

theorem readQuoted_moved (n : Nat) : readQuoted (start + n) quote out (offset + n) text =
    moved n (readQuoted start quote out offset text) := by
  fun_induction readQuoted start quote out offset text with
  | case1 | case7 => rfl
  | case2 out offset a b c d text hcode =>
      rw [readQuoted, hcode]
      dsimp only
      rw [Nat.add_right_comm]
      rfl
  | case3 out offset a b c d text code hcode hchar =>
      rw [readQuoted, hcode]
      dsimp only
      rw [hchar, Nat.add_right_comm]
      rfl
  | case4 out offset a b c d text code hcode char hchar ih =>
      rw [← ih, Nat.add_right_comm, readQuoted, hcode]
      dsimp only
      rw [hchar]
  | case5 out offset text hshort =>
      rw [readQuoted, Nat.add_right_comm]
      · rfl
      · exact hshort
  | case6 out offset c text _ hc ih =>
      rw [readQuoted_escape hc, ← ih]
      congr 1
      omega
  | case8 out offset text _ _ hescape hlone =>
      rw [readQuoted_plain (ne_backslash hescape hlone), if_pos rfl, Nat.add_right_comm]
      rfl
  | case9 out offset text _ _ _ _ hne =>
      rw [readQuoted_plain (by decide), if_neg hne, if_pos rfl]
      rfl
  | case10 out offset c text _ _ hescape hlone hne hbreak ih =>
      rw [readQuoted_plain (ne_backslash hescape hlone), if_neg hne, if_neg hbreak, ← ih,
        Nat.add_right_comm]

theorem readTemplate_within (h : start ≤ offset) :
    Within offset text (readTemplate start out offset text) := by
  fun_induction readTemplate start out offset text with
  | case1 => exact h
  | case2 => exact ⟨['\x60'], rfl, rfl⟩
  | case3 out offset text ih =>
      exact (ih (Nat.le_trans h (Nat.le_add_right _ _))).append ['\\', '\x60']
  | case4 out offset text ih =>
      exact (ih (Nat.le_trans h (Nat.le_add_right _ _))).append ['\\', '\\']
  | case5 out offset c text _ _ _ ih => exact (ih (Nat.le_trans h (Nat.le_add_right _ _))).cons

theorem readTemplate_moved (n : Nat) : readTemplate (start + n) out (offset + n) text =
    moved n (readTemplate start out offset text) := by
  fun_induction readTemplate start out offset text with
  | case1 => rfl
  | case2 =>
      rw [readTemplate, Nat.add_right_comm]
      rfl
  | case3 out offset text ih | case4 out offset text ih =>
      rw [← ih, Nat.add_right_comm]
      rfl
  | case5 out offset c text hclose htick hslash ih =>
      rw [← ih, Nat.add_right_comm, readTemplate]
      · exact hclose
      · exact htick
      · exact hslash

theorem utf8Size_of_isDigit (h : c.isDigit = true) : c.utf8Size = 1 := by
  rw [Char.utf8Size_eq_one_iff]
  unfold Char.isDigit at h
  grind

theorem utf8Size_of_isAlpha (h : c.isAlpha = true) : c.utf8Size = 1 := by
  rw [Char.utf8Size_eq_one_iff]
  unfold Char.isAlpha Char.isUpper Char.isLower at h
  grind

theorem utf8Size_of_isNumberPart (h : isNumberPart c = true) : c.utf8Size = 1 := by
  unfold isNumberPart at h
  rw [Bool.or_eq_true, decide_eq_true_eq] at h
  rcases h with h | rfl
  · exact utf8Size_of_isDigit h
  · rfl

theorem utf8Size_of_isIdentPart (h : isIdentPart c = true) : c.utf8Size = 1 := by
  unfold isIdentPart isIdentStart at h
  simp only [Bool.or_eq_true, decide_eq_true_eq] at h
  rcases h with ((h | rfl) | rfl) | h
  · exact utf8Size_of_isAlpha h
  · rfl
  · rfl
  · exact utf8Size_of_isDigit h

/-- Characters of one byte each are as long in bytes as in characters. -/
theorem utf8Len_eq_length (h : ∀ c ∈ text, c.utf8Size = 1) : String.utf8Len text = text.length := by
  induction text with
  | nil => rfl
  | cons c text ih =>
      rw [String.utf8Len_cons, h c List.mem_cons_self, ih fun d hd => h d (List.mem_cons_of_mem _ hd),
        List.length_cons]

theorem utf8Len_takeWhile {p : Char → Bool} (hp : ∀ c, p c = true → c.utf8Size = 1)
    (text : List Char) : String.utf8Len (text.takeWhile p) = (text.takeWhile p).length :=
  utf8Len_eq_length fun c hc => hp c (List.mem_takeWhile_imp hc)

theorem readNumber_within (start : Nat) (text : List Char) :
    Within start text (readNumber start text) := by
  unfold readNumber
  dsimp only
  split
  · refine ⟨text.takeWhile isNumberPart, List.takeWhile_append_dropWhile.symm, ?_⟩
    rw [utf8Len_takeWhile fun _ => utf8Size_of_isNumberPart]
  · exact Nat.le_add_right _ _

theorem readNumber_moved (n start : Nat) (text : List Char) :
    readNumber (start + n) text = moved n (readNumber start text) := by
  unfold readNumber
  dsimp only
  rw [Nat.add_right_comm]
  split <;> rfl

theorem readPunct_moved (n start : Nat) (c : Char) (rest : List Char) :
    readPunct (start + n) c rest = moved n (readPunct start c rest) := by
  fun_cases readPunct start c rest
  -- Marks that are also the beginnings of others, and what is none.
  case case15 harrow hequal =>
    rw [readPunct, Nat.add_right_comm]
    · rfl
    · exact harrow
    · exact hequal
  case case17 hequal =>
    rw [readPunct, Nat.add_right_comm]
    · rfl
    · exact hequal
  case case20 =>
    rw [readPunct]
    · rfl
    all_goals assumption
  all_goals
    rw [readPunct, Nat.add_right_comm]
    rfl

theorem readPunct_within (start : Nat) (c : Char) (rest : List Char) :
    Within start (c :: rest) (readPunct start c rest) := by
  unfold readPunct
  split
  case h_20 => exact Nat.le_add_right _ _
  case h_13 => exact ⟨['=', '>'], rfl, rfl⟩
  case h_14 => exact ⟨['=', '=', '='], rfl, rfl⟩
  case h_16 => exact ⟨['!', '=', '='], rfl, rfl⟩
  case h_18 => exact ⟨['&', '&'], rfl, rfl⟩
  case h_19 => exact ⟨['|', '|'], rfl, rfl⟩
  all_goals exact ⟨[_], rfl, rfl⟩

theorem readToken_within (start : Nat) (c : Char) (rest : List Char) :
    Within start (c :: rest) (readToken start c rest) := by
  unfold readToken
  split
  · next hquote =>
    have hsize : c.utf8Size = 1 := by
      simp only [Bool.or_eq_true, decide_eq_true_eq] at hquote
      rcases hquote with rfl | rfl <;> rfl
    rw [← hsize]
    exact (readQuoted_within hsize (Nat.le_add_right _ _)).cons
  split
  · next htick =>
    rw [htick]
    exact Within.append ['\x60'] (readTemplate_within (Nat.le_add_right _ _))
  split
  · exact readNumber_within start (c :: rest)
  split
  · refine ⟨(c :: rest).takeWhile isIdentPart, List.takeWhile_append_dropWhile.symm, ?_⟩
    rw [utf8Len_takeWhile fun _ => utf8Size_of_isIdentPart]
    rfl
  · exact readPunct_within start c rest

theorem readToken_moved (n start : Nat) (c : Char) (rest : List Char) :
    readToken (start + n) c rest = moved n (readToken start c rest) := by
  unfold readToken
  by_cases hquote : (decide (c = '"') || decide (c = '\'')) = true
  · rw [if_pos hquote, if_pos hquote, Nat.add_right_comm]
    exact readQuoted_moved n
  rw [if_neg hquote, if_neg hquote]
  by_cases htick : c = '\x60'
  · rw [if_pos htick, if_pos htick, Nat.add_right_comm]
    exact readTemplate_moved n
  rw [if_neg htick, if_neg htick]
  by_cases hdigit : c.isDigit = true
  · rw [if_pos hdigit, if_pos hdigit]
    exact readNumber_moved n start (c :: rest)
  rw [if_neg hdigit, if_neg hdigit]
  by_cases hident : isIdentStart c = true
  · rw [if_pos hident, if_pos hident]
    unfold readIdent
    dsimp only
    rw [Nat.add_right_comm]
    rfl
  · rw [if_neg hident, if_neg hident]
    exact readPunct_moved n start c rest

/-- A token ends after its first character, inside the text. -/
theorem readToken_ends {read : Read TokenKind} (h : readToken start c rest = .ok read) :
    start < read.offset ∧ ∃ front, c :: rest = front ++ read.rest ∧
      read.offset = start + String.utf8Len front := by
  have hwithin := readToken_within start c rest
  rw [h] at hwithin
  obtain ⟨front, htext, hoffset⟩ := hwithin
  refine ⟨?_, front, htext, hoffset⟩
  cases front with
  | nil =>
      have hlength := readToken_length h
      have hsame := congrArg List.length htext
      rw [List.length_cons, List.nil_append] at hsame
      omega
  | cons d front =>
      have hpos := d.utf8Size_pos
      rw [hoffset, String.utf8Len_cons]
      omega

/-- The tokens of the same text, `n` bytes further on. -/
def movedTokens (n : Nat) : Except SyntaxError (List Token) → Except SyntaxError (List Token)
  | .ok tokens => .ok (tokens.map (·.moved n))
  | .error e => .error (e.moved n)

/-- The same text is cut into the same tokens, wherever it stands. -/
theorem tokensFrom_moved (n offset : Nat) (text : List Char) :
    tokensFrom (offset + n) text = movedTokens n (tokensFrom offset text) := by
  have hmoved {offset : Nat} {text : List Char} : skipTrivia (offset + n) .blank text =
      moved n (skipTrivia offset .blank text) := skipTrivia_moved n offset .blank text
  fun_induction tokensFrom offset text with
  | case1 offset text e hskip =>
      rw [tokensFrom_eq, hmoved, hskip]
      rfl
  | case2 offset text _ start hskip =>
      rw [tokensFrom_eq, hmoved, hskip]
      rfl
  | case3 offset text _ start c later hskip e hread =>
      rw [tokensFrom_eq, hmoved, hskip]
      dsimp only [moved]
      rw [readToken_moved, hread]
      rfl
  | case4 offset text _ start c later hskip read hread e hrest ih =>
      rw [tokensFrom_eq, hmoved, hskip]
      dsimp only [moved]
      rw [readToken_moved, hread]
      dsimp only [moved]
      rw [ih, hrest]
      rfl
  | case5 offset text _ start c later hskip read hread tokens hrest ih =>
      rw [tokensFrom_eq, hmoved, hskip]
      dsimp only [moved]
      rw [readToken_moved, hread]
      dsimp only [moved]
      rw [ih, hrest]
      rfl

/-- A token at the front of a text is cut off, and what comes after it is cut as
    it is by itself. -/
theorem tokensFrom_token {read : Read TokenKind} (hread : readToken start c rest = .ok read) :
    tokensFrom start (c :: rest) =
      (tokensFrom read.offset read.rest).map (⟨read.value, start⟩ :: ·) := by
  have hc : c ∉ ['/', ' ', '\t', '\n', '\r'] := by
    intro hmem
    simp only [List.mem_cons, List.not_mem_nil, or_false] at hmem
    rcases hmem with rfl | rfl | rfl | rfl | rfl <;> cases hread
  rw [tokensFrom_eq, skipTrivia_token hc]
  dsimp only
  rw [hread]
  dsimp only
  cases tokensFrom read.offset read.rest <;> rfl

theorem skipTrivia_ends (h : skipTrivia offset .blank text = .ok ⟨(), start, rest⟩) :
    ∃ front, text = front ++ rest ∧ start = offset + String.utf8Len front := by
  have hwithin : Within offset text (skipTrivia offset .blank text) :=
    skipTrivia_within fun _ h => by cases h
  rwa [h] at hwithin

/-- An error stands inside the text. -/
theorem tokensFrom_error {e : SyntaxError} (h : tokensFrom offset text = .error e) :
    e.offset ≤ offset + String.utf8Len text := by
  fun_induction tokensFrom offset text with
  | case1 offset text e' hskip =>
      cases h
      have hwithin : Within offset text (skipTrivia offset .blank text) :=
        skipTrivia_within fun _ h => by cases h
      rwa [hskip] at hwithin
  | case2 | case5 => cases h
  | case3 offset text _ start c later hskip e' hread =>
      cases h
      obtain ⟨front, rfl, rfl⟩ := skipTrivia_ends hskip
      have hwithin := readToken_within (offset + String.utf8Len front) c later
      rw [hread] at hwithin
      rw [String.utf8Len_append, ← Nat.add_assoc]
      exact hwithin
  | case4 offset text _ start c later hskip read hread e' hrest ih =>
      cases h
      obtain ⟨front, rfl, rfl⟩ := skipTrivia_ends hskip
      obtain ⟨-, own, hown, hoffset⟩ := readToken_ends hread
      have hle := ih hrest
      rw [hown, String.utf8Len_append, String.utf8Len_append]
      omega

/-- Where the tokens stand of a text that begins at `offset`. They are in
    order, each begins what is left of the text after some characters, and the
    last one and no other marks the end. -/
structure Positioned (offset : Nat) (text : List Char) (tokens : List Token) : Prop where
  ordered : tokens.Pairwise fun a b => a.offset < b.offset
  begins : ∀ before token after, tokens = before ++ token :: after →
    ∃ front rest, text = front ++ rest ∧ token.offset = offset + String.utf8Len front ∧
      tokensFrom token.offset rest = .ok (token :: after)
  ends : ∃ before, tokens = before ++ [⟨.eof, offset + String.utf8Len text⟩] ∧
    ∀ token ∈ before, token.kind ≠ .eof

namespace Positioned

/-- What holds of the tokens after some characters holds of them in the whole
    text. -/
theorem append (front : List Char) (h : Positioned (offset + String.utf8Len front) text tokens) :
    Positioned offset (front ++ text) tokens := by
  refine ⟨h.ordered, fun before token after hsplit => ?_, ?_⟩
  · obtain ⟨inner, rest, rfl, hoffset, hrest⟩ := h.begins before token after hsplit
    refine ⟨front ++ inner, rest, (List.append_assoc ..).symm, ?_, hrest⟩
    rw [hoffset, String.utf8Len_append, Nat.add_assoc]
  · rw [String.utf8Len_append, ← Nat.add_assoc]
    exact h.ends

theorem nil (offset : Nat) : Positioned offset [] [⟨.eof, offset⟩] := by
  refine ⟨List.pairwise_singleton _ _, fun before token after hsplit => ?_, [], rfl, ?_⟩
  · cases before with
    | nil =>
        cases hsplit
        exact ⟨[], [], rfl, rfl, tokensFrom_eq offset []⟩
    | cons _ before =>
        have hnil := (List.cons.inj hsplit).2
        exact absurd hnil.symm (List.append_ne_nil_of_right_ne_nil _ (List.cons_ne_nil _ _))
  · exact fun _ h => absurd h List.not_mem_nil

/-- A token is put before those after it. -/
theorem cons {read : Read TokenKind} (hread : readToken start c rest = .ok read)
    (hall : tokensFrom start (c :: rest) = .ok (⟨read.value, start⟩ :: tokens))
    (h : Positioned read.offset read.rest tokens) :
    Positioned start (c :: rest) (⟨read.value, start⟩ :: tokens) := by
  obtain ⟨hlt, front, htext, hoffset⟩ := readToken_ends hread
  have hrest : Positioned start (c :: rest) tokens := by
    rw [htext]
    exact .append front (hoffset ▸ h)
  refine ⟨List.pairwise_cons.mpr ⟨fun token htoken => ?_, h.ordered⟩, ?_, ?_⟩
  · obtain ⟨before, after, rfl⟩ := List.append_of_mem htoken
    obtain ⟨inner, _, -, hinner, -⟩ := h.begins before token after rfl
    exact Nat.lt_of_lt_of_le hlt (hinner ▸ Nat.le_add_right _ _)
  · intro before token after hsplit
    cases before with
    | nil =>
        cases hsplit
        exact ⟨[], c :: rest, rfl, rfl, hall⟩
    | cons first before =>
        cases hsplit
        exact hrest.begins before token after rfl
  · obtain ⟨before, hends, hother⟩ := hrest.ends
    refine ⟨⟨read.value, start⟩ :: before, congrArg (_ :: ·) hends, fun token htoken => ?_⟩
    rcases List.mem_cons.mp htoken with rfl | htoken
    · exact readToken_ne_eof hread
    · exact hother token htoken

end Positioned

/-- Tokens are in order, and each begins the rest of the text. -/
theorem tokensFrom_positioned (h : tokensFrom offset text = .ok tokens) :
    Positioned offset text tokens := by
  fun_induction tokensFrom offset text generalizing tokens with
  | case1 | case3 | case4 => cases h
  | case2 offset text _ start hskip =>
      cases h
      obtain ⟨front, rfl, rfl⟩ := skipTrivia_ends hskip
      exact .append front (.nil _)
  | case5 offset text _ start c later hskip read hread tokens hrest ih =>
      cases h
      have hall : tokensFrom start (c :: later) = .ok (⟨read.value, start⟩ :: tokens) := by
        rw [tokensFrom_token hread, hrest]
        rfl
      obtain ⟨front, rfl, rfl⟩ := skipTrivia_ends hskip
      exact .append front (.cons hread hall (ih hrest))

/-- A quoted text is one token wherever it stands, and what comes after it is
    cut as it is by itself. -/
theorem tokensFrom_quote_append (offset : Nat) (text : String) (after : List Char) :
    tokensFrom offset ((Script.quote text).toList ++ after) =
      (tokensFrom (offset + (Script.quote text).utf8ByteSize) after).map
        (⟨.str text, offset⟩ :: ·) := by
  obtain ⟨next, hread⟩ := readToken_quote offset text after
  -- What is left says what was taken, and so where the next token stands.
  obtain ⟨-, front, htaken, hnext⟩ := readToken_ends hread
  rw [← toList_quote_append] at htaken
  dsimp only at htaken hnext
  have hfront : front = (Script.quote text).toList := (List.append_cancel_right htaken).symm
  rw [hfront, String.utf8Len_toList] at hnext
  rw [toList_quote_append, tokensFrom_token hread, hnext]

end Lexer

/-- In front of a source text, a quoted text is one token more. It stands for
    the text, and the tokens of the source, or what is wrong with it, are as
    many bytes further on as are written for the text. -/
theorem tokenize_quote_append (text source : String) :
    tokenize (quote text ++ source) =
      (Lexer.movedTokens (quote text).utf8ByteSize (tokenize source)).map
        (⟨.str text, 0⟩ :: ·) := by
  unfold tokenize
  rw [String.toList_append, Lexer.tokensFrom_quote_append, Lexer.tokensFrom_moved]

/-- The code of a control character does not run on into the digits after it. -/
example : (tokenize (quote "\x01f\\" ++ "a")).toOption =
    some [⟨.str "\x01f\\", 0⟩, ⟨.ident "a", 11⟩, ⟨.eof, 12⟩] := by decide +kernel

end Script

end RenderFold
