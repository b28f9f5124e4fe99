import RenderFold.Proofs.Script.Following
import RenderFold.Proofs.Script.Lines

/-!
# Statements and Functions

A render function may be written as a function or as its statements alone. The
statements, put between the braces of a function without a name and without
parameters, are the body of that function.

They are cut into the same tokens there. A token may be ended by the end of the
text, and a comment too that runs to the end of its line, so there has to be a
line break before the brace. It ends whatever the end of the text ended and
begins nothing.

Then the statements are read one by one, up to the brace instead of the end.

## Main definitions

* `Lexer.Trivia.startingAt`: The same blanks and comments, somewhere else.

## Theorems

* `Lexer.reads_append`: Text before a line break is cut into the same tokens.
* `parseFunction_enclosed`: Statements are read as the body of a function.
-/

namespace RenderFold

namespace Script

namespace Lexer

variable {text after rest out : List Char} {offset start : Nat} {trivia : Trivia} {c quote : Char}
  {kinds : List TokenKind} {read : Read TokenKind}

/-- The same blanks and comments, with a block comment that starts elsewhere. -/
def Trivia.startingAt (start : Nat) : Trivia → Trivia
  | .block _ => .block start
  | trivia => trivia

/-- A line break belongs to no mark, so it does not complete one. -/
theorem append_break_ne (mark : List Char) (hmark : '\n' ∉ mark)
    (h : ∀ rest, text ≠ mark ++ rest) : ∀ rest, text ++ '\n' :: after ≠ mark ++ rest := by
  intro rest hsplit
  induction mark generalizing text with
  | nil => exact h text rfl
  | cons b mark ih =>
      rw [List.mem_cons, not_or] at hmark
      cases text with
      | nil => exact hmark.1 (List.cons.inj hsplit).1
      | cons d text =>
          obtain ⟨rfl, htail⟩ := List.cons.inj hsplit
          exact ih hmark.2 (fun rest heq => h rest (congrArg (d :: ·) heq)) htail

/-- What is skipped at the end of a text is skipped before a line break. -/
theorem skipTrivia_append (h : skipTrivia offset trivia text = .ok ⟨(), start, rest⟩)
    (after : List Char) : ∀ offset' start', ∃ offset'',
      skipTrivia offset' (trivia.startingAt start') (text ++ '\n' :: after) =
        skipTrivia offset'' .blank (rest ++ '\n' :: after) := by
  fun_induction skipTrivia offset trivia text with
  | case1 offset text ih => exact fun offset' start' => ih h (offset' + 2) start'
  | case2 offset text ih => exact fun offset' _ => ih h (offset' + 2) offset'
  | case3 offset c text hline hblock hblank ih =>
      -- A slash before the break starts no comment that it did not start before the end.
      intro offset' start'
      obtain ⟨offset'', hskip⟩ := ih h (offset' + 1) start'
      refine ⟨offset'', Eq.trans ?_ hskip⟩
      change skipTrivia offset' .blank (c :: (text ++ '\n' :: after)) = _
      rw [skipTrivia, if_pos hblank]
      · rfl
      · exact fun rest hc => append_break_ne ['/'] (by decide) (fun rest => hline rest hc) rest
      · exact fun rest hc => append_break_ne ['*'] (by decide) (fun rest => hblock rest hc) rest
  | case4 =>
      cases h
      exact fun offset' _ => ⟨offset', rfl⟩
  | case5 offset text ih => exact fun offset' start' => ih h (offset' + 1) start'
  | case6 offset c text hbreak ih =>
      intro offset' start'
      obtain ⟨offset'', hskip⟩ := ih h (offset' + c.utf8Size) start'
      refine ⟨offset'', Eq.trans ?_ hskip⟩
      change skipTrivia offset' .line (c :: (text ++ '\n' :: after)) = _
      rw [skipTrivia]
      · rfl
      · exact hbreak
  | case7 offset start text ih => exact fun offset' start' => ih h (offset' + 2) start'
  | case8 offset start c text hclose ih =>
      intro offset' start'
      obtain ⟨offset'', hskip⟩ := ih h (offset' + c.utf8Size) start'
      refine ⟨offset'', Eq.trans ?_ hskip⟩
      change skipTrivia offset' (.block start') (c :: (text ++ '\n' :: after)) = _
      rw [skipTrivia]
      · rfl
      · exact fun rest hc => append_break_ne ['/'] (by decide) (fun rest => hclose rest hc) rest
  | case9 => cases h
  | case10 offset trivia hopen =>
      -- The end of the text ends a comment to the end of the line, and so does the break.
      cases h
      intro offset' start'
      cases trivia with
      | blank | line => exact ⟨offset', rfl⟩
      | block start => exact absurd rfl (hopen start)

theorem skipTrivia_cons (h : skipTrivia offset trivia text = .ok ⟨(), start, c :: rest⟩) :
    c ∉ [' ', '\t', '\n', '\r'] := by
  fun_induction skipTrivia offset trivia text with
  | case4 offset d text hline hblock hblank =>
      cases h
      simpa [and_assoc] using hblank
  | case9 | case10 => cases h
  | _ => exact ‹_ → _› h

/-- A quoted text is read whatever comes after it. -/
theorem readQuoted_append (h : readQuoted start quote out offset text = .ok read)
    (after : List Char) : ∀ start' offset', ∃ next,
      readQuoted start' quote out offset' (text ++ after) =
        .ok ⟨read.value, next, read.rest ++ after⟩ := by
  fun_induction readQuoted start quote out offset text with
  | case1 | case2 | case3 | case5 | case7 | case9 => cases h
  | case4 out offset a b c d text code hcode char hchar ih =>
      intro start' offset'
      obtain ⟨next, hread⟩ := ih h start' (offset' + 6)
      refine ⟨next, ?_⟩
      change readQuoted start' quote out offset'
        ('\\' :: 'u' :: a :: b :: c :: d :: (text ++ after)) = _
      rw [readQuoted, hcode]
      dsimp only
      rw [hchar]
      exact hread
  | case6 out offset c text _ hc ih =>
      intro start' offset'
      obtain ⟨next, hread⟩ := ih h start' (offset' + 1 + c.utf8Size)
      refine ⟨next, ?_⟩
      change readQuoted start' quote out offset' ('\\' :: c :: (text ++ after)) = _
      rw [readQuoted_escape hc]
      exact hread
  | case8 out offset text _ _ hescape hlone =>
      cases h
      intro start' offset'
      have hquote : quote ≠ '\\' := ne_backslash hescape hlone
      rw [List.cons_append, readQuoted_plain hquote, if_pos rfl]
      exact ⟨_, rfl⟩
  | case10 out offset c text _ _ hescape hlone hquote hbreak ih =>
      intro start' offset'
      have hc : c ≠ '\\' := ne_backslash hescape hlone
      rw [List.cons_append, readQuoted_plain hc, if_neg hquote, if_neg hbreak]
      exact ih h start' _

/-- So is a backtick text. -/
theorem readTemplate_append (h : readTemplate start out offset text = .ok read)
    (after : List Char) : ∀ start' offset', ∃ next,
      readTemplate start' out offset' (text ++ after) =
        .ok ⟨read.value, next, read.rest ++ after⟩ := by
  fun_induction readTemplate start out offset text with
  | case1 => cases h
  | case2 =>
      cases h
      exact fun _ _ => ⟨_, rfl⟩
  | case3 out offset text ih => exact fun start' offset' => ih h start' (offset' + 2)
  | case4 out offset text ih => exact fun start' offset' => ih h start' (offset' + 2)
  | case5 out offset c text hclose htick hslash ih =>
      intro start' offset'
      obtain ⟨next, hread⟩ := ih h start' (offset' + c.utf8Size)
      refine ⟨next, ?_⟩
      -- Something comes after the character, since the text has not ended.
      have hsame {b : Char} (hne : ∀ rest, c = '\\' → text = b :: rest → False) :
          ∀ rest, c = '\\' → text ++ after = b :: rest → False := by
        intro rest hc hsplit
        cases text with
        | nil => cases h
        | cons d text => exact hne text hc (congrArg (· :: text) (List.cons.inj hsplit).1)
      rw [List.cons_append, readTemplate]
      · exact hread
      · exact hclose
      · exact hsame htick
      · exact hsame hslash

theorem span_break {p : Char → Bool} (hbreak : p '\n' = false) (text after : List Char) :
    (text ++ '\n' :: after).takeWhile p = text.takeWhile p ∧
      (text ++ '\n' :: after).dropWhile p = text.dropWhile p ++ '\n' :: after := by
  induction text with
  | nil =>
      have hstop : ¬ p '\n' = true := ne_true_of_eq_false hbreak
      exact ⟨List.takeWhile_cons_of_neg hstop, List.dropWhile_cons_of_neg hstop⟩
  | cons c text ih =>
      rw [List.cons_append, List.takeWhile_cons, List.takeWhile_cons, List.dropWhile_cons,
        List.dropWhile_cons]
      split
      · exact ⟨congrArg (c :: ·) ih.1, ih.2⟩
      · exact ⟨rfl, rfl⟩

/-- A number and an identifier end at a line break as they do at the end. -/
theorem readNumber_append (h : readNumber start text = .ok read) (after : List Char)
    (start' : Nat) : ∃ next, readNumber start' (text ++ '\n' :: after) =
      .ok ⟨read.value, next, read.rest ++ '\n' :: after⟩ := by
  obtain ⟨htake, hdrop⟩ := @span_break isNumberPart (by decide) text after
  unfold readNumber at h ⊢
  dsimp only at h ⊢
  rw [htake, hdrop]
  split at h
  · cases h
    exact ⟨_, rfl⟩
  · cases h

theorem readIdent_append (start start' : Nat) (text after : List Char) : ∃ next,
    readIdent start' (text ++ '\n' :: after) =
      ⟨(readIdent start text).value, next, (readIdent start text).rest ++ '\n' :: after⟩ := by
  obtain ⟨htake, hdrop⟩ := @span_break isIdentPart (by decide) text after
  unfold readIdent
  dsimp only
  rw [htake, hdrop]
  exact ⟨_, rfl⟩

/-- A mark is not made longer by a line break. -/
theorem readPunct_append (h : readPunct start c text = .ok read) (after : List Char)
    (start' : Nat) : ∃ next, readPunct start' c (text ++ '\n' :: after) =
      .ok ⟨read.value, next, read.rest ++ '\n' :: after⟩ := by
  unfold readPunct at h
  split at h <;> cases h
  -- Only these two marks are the beginnings of others.
  case h_15 harrow hequal =>
    refine ⟨start' + 1, ?_⟩
    rw [readPunct]
    · exact append_break_ne ['>'] (by decide) harrow
    · exact append_break_ne ['=', '='] (by decide) hequal
  case h_17 hequal =>
    refine ⟨start' + 1, ?_⟩
    rw [readPunct]
    exact append_break_ne ['=', '='] (by decide) hequal
  all_goals exact ⟨_, rfl⟩

/-- A token is read whatever comes after a line break that comes after it. -/
theorem readToken_append (h : readToken start c text = .ok read) (after : List Char)
    (start' : Nat) : ∃ next, readToken start' c (text ++ '\n' :: after) =
      .ok ⟨read.value, next, read.rest ++ '\n' :: after⟩ := by
  unfold readToken at h ⊢
  by_cases hquote : (decide (c = '"') || decide (c = '\'')) = true
  · rw [if_pos hquote] at h ⊢
    exact readQuoted_append h _ _ _
  rw [if_neg hquote] at h ⊢
  by_cases htick : c = '\x60'
  · rw [if_pos htick] at h ⊢
    exact readTemplate_append h _ _ _
  rw [if_neg htick] at h ⊢
  by_cases hdigit : c.isDigit = true
  · rw [if_pos hdigit] at h ⊢
    exact readNumber_append h after start'
  rw [if_neg hdigit] at h ⊢
  by_cases hident : isIdentStart c = true
  · rw [if_pos hident] at h ⊢
    cases h
    obtain ⟨next, hread⟩ := readIdent_append start start' (c :: text) after
    exact ⟨next, congrArg Except.ok hread⟩
  · rw [if_neg hident] at h ⊢
    exact readPunct_append h after start'

theorem ne_slash_of_readToken (h : readToken start c text = .ok read) : c ≠ '/' := by
  rintro rfl
  cases h

/-- Text that can be cut into tokens is cut into the same ones before a line
    break, and what comes after the break is cut as it is by itself. -/
theorem reads_append {tokens : List Token} (h : tokensFrom offset text = .ok tokens)
    (hafter : Reads after kinds) : ∃ before, tokens.map (·.kind) = before ++ [.eof] ∧
      Reads (text ++ '\n' :: after) (before ++ kinds) := by
  fun_induction tokensFrom offset text generalizing tokens with
  | case1 | case3 | case4 => cases h
  | case2 offset text _ start hskip =>
      cases h
      refine ⟨[], rfl, fun offset' => ?_⟩
      obtain ⟨offset'', hsame⟩ := skipTrivia_append hskip after offset' 0
      rw [tokensFrom_congr hsame]
      exact hafter.newline offset''
  | case5 offset text _ start c later hskip read hread rest hrest ih =>
      cases h
      obtain ⟨before, hbefore, hreads⟩ := ih hrest
      refine ⟨read.value :: before, congrArg (read.value :: ·) hbefore, ?_⟩
      have hc : c ∉ ['/', ' ', '\t', '\n', '\r'] :=
        List.not_mem_cons_of_ne_of_not_mem (ne_slash_of_readToken hread) (skipTrivia_cons hskip)
      refine .cons (fun offset' => ?_) (readToken_append hread after) hreads
      obtain ⟨offset'', hsame⟩ := skipTrivia_append hskip after offset' 0
      exact ⟨offset'', hsame.trans (skipTrivia_token hc offset'' _)⟩

/-- The tokens of a function around a text. -/
theorem reads_enclosed {source : String} {tokens : List Token}
    (h : tokenize source = .ok tokens) : ∃ kinds, tokens.map (·.kind) = kinds ++ [.eof] ∧
      Reads ("function () \x7b\n" ++ source ++ "\n\x7d").toList (.ident "function" ::
        .punct .leftParen :: .punct .rightParen :: .punct .leftBrace ::
          (kinds ++ [.punct .rightBrace, .eof])) := by
  have hbrace : Reads ['\x7d'] [.punct .rightBrace, .eof] :=
    .token (by decide) (fun _ => ⟨_, rfl⟩) (.nil fun offset => ⟨offset, rfl⟩)
  obtain ⟨kinds, hkinds, hreads⟩ := reads_append h hbrace
  refine ⟨kinds, hkinds, ?_⟩
  have hchars : ("function () \x7b\n" ++ source ++ "\n\x7d").toList = "function".toList ++
      ' ' :: '(' :: ')' :: ' ' :: '\x7b' :: '\n' :: (source.toList ++ ['\n', '\x7d']) := by
    simp only [String.toList_append, String.reduceToList, List.cons_append, List.nil_append]
  rw [hchars]
  refine reads_ident (by decide) (Closes.head rfl (by decide)) (.blank ?_)
  refine .token (by decide) (fun _ => ⟨_, rfl⟩) (.token (by decide) (fun _ => ⟨_, rfl⟩) (.blank ?_))
  exact .token (by decide) (fun _ => ⟨_, rfl⟩) hreads.newline

end Lexer

namespace Parser

variable {s s' t : State} {depth fuel fuel' : Nat} {kinds : List TokenKind} {σ : Setting}
  {expression argument unary statement : Parse Id} {a : Id}

/-- No expression begins with a closing brace. -/
theorem unaryWith_brace (h : s.kind = .punct .rightBrace) :
    unaryWith expression argument s ≠ .ok a t := by
  intro hx
  unfold unaryWith at hx
  rw [bind_eq (eat_no (h ▸ by decide)), if_neg Bool.false_ne_true] at hx
  obtain ⟨target, s₁, hprimary, -⟩ := bind_eq_ok hx
  unfold primary at hprimary
  rw [bind_eq (peek_eq s), h] at hprimary
  cases hprimary

theorem expression_brace (h : s.kind = .punct .rightBrace) :
    (levels depth).expression s ≠ .ok a t := by
  intro hx
  cases depth with
  | zero => cases hx
  | succ depth =>
      have hexpression : expressionWith (levels depth).expression (levels depth).unary s =
          .ok a t := hx
      have hstarts : startsArrow s.rest = false := by
        unfold State.kind at h
        split at h
        · cases h
        · next token rest hrest =>
            obtain ⟨kind, offset⟩ := token
            cases h
            rw [hrest]
            rfl
      unfold expressionWith at hexpression
      rw [bind_eq (rfl : (get : Parse State) s = .ok s s), hstarts, if_neg Bool.false_ne_true]
        at hexpression
      -- The first operand of the first chain is read first.
      obtain ⟨_, _, hbinary, -⟩ := bind_eq_ok hexpression
      obtain ⟨_, _, hbinary, -⟩ := bind_eq_ok hbinary
      obtain ⟨_, _, hbinary, -⟩ := bind_eq_ok hbinary
      obtain ⟨_, _, hbinary, -⟩ := bind_eq_ok hbinary
      obtain ⟨_, _, hunary, -⟩ := bind_eq_ok hbinary
      cases depth with
      | zero => exact unaryWith_brace h hunary
      | succ depth => exact unaryWith_brace h hunary

theorem statement_brace (h : s.kind = .punct .rightBrace) :
    (levels depth).statement s ≠ .ok a t := by
  intro hx
  cases depth with
  | zero => cases hx
  | succ depth =>
      have hstatement : statementWith (levels depth).statement (levels depth).expression s =
          .ok a t := hx
      have hname (name : String) : ¬ s.kind = .ident name := h ▸ TokenKind.noConfusion
      unfold statementWith at hstatement
      rw [bind_eq (atKeyword?_eq _ s), decide_eq_false (hname _), if_neg Bool.false_ne_true,
        bind_eq (atKeyword?_eq _ s), decide_eq_false (hname _), if_neg Bool.false_ne_true,
        bind_eq (atKeyword?_eq _ s), decide_eq_false (hname _), if_neg Bool.false_ne_true,
        bind_eq (atKeyword?_eq _ s), decide_eq_false (hname _), if_neg Bool.false_ne_true,
        bind_eq (atKeyword?_eq _ s), decide_eq_false (hname _), if_neg Bool.false_ne_true]
        at hstatement
      obtain ⟨_, _, hexpression, -⟩ := bind_eq_ok hstatement
      exact expression_brace h hexpression

variable (σ) in
/-- Statements up to the end are the statements up to a brace that is there
    instead. -/
theorem blockRest_of_statements (hbraced : σ.braced = true) :
    ∀ {fuel fuel' kinds s s' body t}, kinds.length < fuel → kinds.length < fuel' →
      σ.Beside s s' kinds → statements fuel s = .ok body t →
        ∃ t', blockRest outermost.statement fuel' s' = .ok (body.map σ.place) t' ∧
          t'.arena = σ.copy t.arena ∧ t'.rest.map (·.kind) = [.eof]
  | fuel + 1, fuel' + 1, kinds, s, s', body, t, hfuel, hfuel', hbeside, h => by
      have hskip : (kinds.dropWhile (· = .punct .semi)).length ≤ kinds.length :=
        (List.dropWhile_suffix _).length_le
      have hskipped := hbeside.skipSemis
      rw [statements, bind_eq (skipSemis_past s), bind_eq (peek_eq _)] at h
      rw [blockRest, bind_eq (skipSemis_past s')]
      generalize kinds.dropWhile (· = .punct .semi) = kinds₁ at hskip hskipped
      generalize s.pastSemis = s₁ at h hskipped
      generalize s'.pastSemis = s₁' at hskipped ⊢
      cases kinds₁ with
      | nil =>
          -- No statement is left, so the one is at the end and the other at the brace.
          have hclosing : σ.closing = [.punct .rightBrace, .eof] := if_pos hbraced
          have hahead := hskipped.ahead'
          rw [hclosing] at hahead
          rw [State.kind_of_rest hskipped.ahead, if_pos rfl] at h
          cases h
          rw [bind_eq (eat_yes (State.kind_of_rest hahead))]
          exact ⟨s₁'.advance, rfl, s₁'.advance_arena.trans hskipped.arena,
            State.rest_advance hahead (List.cons_ne_nil _ _)⟩
      | cons kind rest =>
          have hkind : s₁.kind = kind := State.kind_of_rest hskipped.ahead
          have hkind' : s₁'.kind = kind := State.kind_of_rest hskipped.ahead'
          have heof : kind ≠ .eof := fun heq => hskipped.inner (heq ▸ List.mem_cons_self)
          rw [hkind, if_neg heof] at h
          obtain ⟨first, s₂, hfirst, h⟩ := bind_eq_ok h
          obtain ⟨later, s₃, hlater, h⟩ := bind_eq_ok h
          cases h
          -- A brace here would end the block too early, but a statement has been read
          -- here, and none begins with a brace.
          have hbrace : kind ≠ .punct .rightBrace := by
            rintro rfl
            exact statement_brace hkind hfirst
          have hlevels : σ.TracksLevel outermost outermost :=
            σ.tracks_levels (Nat.le_refl _) fun hlt => absurd hlt (Nat.lt_irrefl _)
          rcases hlevels.statement _ hskipped hfirst with
            ⟨kinds₂, s₂', hfirst', hlt, hbeside₂⟩ | ⟨hlimited, -⟩
          · have hfuel₂ : kinds₂.length < fuel := by omega
            have hfuel₂' : kinds₂.length < fuel' := by omega
            obtain ⟨t', hlater', harena, hrest⟩ :=
              blockRest_of_statements hbraced hfuel₂ hfuel₂' hbeside₂ hlater
            refine ⟨t', ?_, harena, hrest⟩
            rw [bind_eq (eat_no (hkind' ▸ hbrace)), if_neg Bool.false_ne_true,
              bind_eq (peek_eq s₁'), hkind', if_neg heof]
            dsimp only
            rw [bind_eq hfirst', bind_eq hlater']
            rfl
          · exact absurd hlimited (σ.unlimited hbraced)

theorem params_nil (h : s.kind = .punct .rightParen) : params s = .ok [] s.advance := by
  unfold params items
  rw [bind_eq (remaining_eq s), itemsTo, bind_eq (eat_yes h)]
  rfl

theorem Setting.place_of_below (h : σ.below = .empty) : σ.place = id :=
  funext fun part => by
    rw [place, h]
    exact Nat.zero_add part

theorem Setting.copy_of_below (h : σ.below = .empty) (arena : Arena) : σ.copy arena = arena := by
  have hnodes : arena.nodes.map (·.map id) = arena.nodes :=
    (Array.map_congr_left fun node _ => node.map_id).trans (Array.map_id _)
  rw [copy, h, place_of_below h, hnodes]
  exact congrArg Arena.mk Array.empty_append

/-- Statements in the braces of a function without a name and parameters are its
    body. -/
theorem function_of_statements {tokens tokens' : List Token} {body : List Id}
    (hinner : .eof ∉ kinds) (hkinds : tokens.map (·.kind) = kinds ++ [.eof])
    (hkinds' : tokens'.map (·.kind) = .ident "function" :: .punct .leftParen ::
      .punct .rightParen :: .punct .leftBrace :: (kinds ++ [.punct .rightBrace, .eof]))
    (h : statements fuel ⟨.empty, tokens⟩ = .ok body t) (hfuel : kinds.length < fuel) :
    ∃ t', function ⟨.empty, tokens'⟩ = .ok t.arena.size t' ∧
      t'.arena = (t.arena.push (.function none [] body)).2 ∧ t'.rest.map (·.kind) = [.eof] := by
  let σ : Setting := ⟨.empty, true, False, fun _ => id⟩
  let s : State := ⟨.empty, tokens'⟩
  -- Behind the keyword, the parentheses and the brace both readings are at the body.
  have hparen : s.advance.rest.map (·.kind) = _ := State.rest_advance hkinds' (List.cons_ne_nil _ _)
  have hclose := State.rest_advance hparen (List.cons_ne_nil _ _)
  have hbrace := State.rest_advance hclose (List.cons_ne_nil _ _)
  have hbody := State.rest_advance hbrace
    (List.append_ne_nil_of_right_ne_nil _ (List.cons_ne_nil _ _))
  have harena : s.advance.advance.advance.advance.arena = .empty := by
    rw [State.advance_arena, State.advance_arena, State.advance_arena, State.advance_arena]
  have hbeside : σ.Beside ⟨.empty, tokens⟩ s.advance.advance.advance.advance kinds :=
    ⟨hinner, hkinds, hbody, harena.trans (σ.copy_of_below rfl _).symm⟩
  obtain ⟨t', hrun, harena', hrest⟩ := blockRest_of_statements σ rfl hfuel
    (Nat.lt_succ_of_lt hbeside.length_lt.2) hbeside h
  rw [σ.place_of_below rfl, List.map_id] at hrun
  rw [σ.copy_of_below rfl] at harena'
  have hblock : block outermost.statement s.advance.advance.advance = .ok body t' := by
    unfold block
    rw [bind_eq (expect_eq _ (State.kind_of_rest hbrace)), bind_eq (remaining_eq _)]
    exact hrun
  refine ⟨{ t' with arena := (t'.arena.push (.function none [] body)).2 }, ?_, harena' ▸ rfl, hrest⟩
  have hfunction : (do
      expect .leftParen "`(`"
      let names ← params
      push (.function none names (← block outermost.statement))) s.advance =
        .ok t.arena.size { t' with arena := (t'.arena.push (.function none [] body)).2 } := by
    rw [bind_eq (expect_eq _ (State.kind_of_rest hparen)),
      bind_eq (params_nil (State.kind_of_rest hclose)), bind_eq hblock]
    exact congrArg (EStateM.Result.ok · _) (congrArg Arena.size harena')
  unfold function
  rw [bind_eq (bump_eq s), bind_eq (peek_eq _), State.kind_of_rest hparen]
  exact hfunction

/-- Statements that are a whole render function are read as one in braces. -/
theorem program_enclosed {tokens tokens' : List Token} {root : Id}
    (hinner : .eof ∉ kinds) (hkinds : tokens.map (·.kind) = kinds ++ [.eof])
    (hkinds' : tokens'.map (·.kind) = .ident "function" :: .punct .leftParen ::
      .punct .rightParen :: .punct .leftBrace :: (kinds ++ [.punct .rightBrace, .eof]))
    (hbare : (⟨.empty, tokens⟩ : State).kind ≠ .ident "function")
    (h : program ⟨.empty, tokens⟩ = .ok root s) :
    (∃ s', program ⟨.empty, tokens'⟩ = .ok root s' ∧ s'.arena = s.arena) ∧
      ∃ body, s.arena.get root = .function none [] body := by
  unfold program at h
  rw [bind_eq (atKeyword?_eq _ _), decide_eq_false hbare, if_neg Bool.false_ne_true] at h
  rw [bind_eq (remaining_eq _)] at h
  obtain ⟨body, t, hbody, h⟩ := bind_eq_ok h
  rw [bind_eq (rfl : push (.function none [] body) t = .ok t.arena.size
    { t with arena := (t.arena.push (.function none [] body)).2 })] at h
  dsimp only at h
  rw [bind_eq (peek_eq _)] at h
  have hfuel : kinds.length < tokens.length + 1 := by
    have hlength := congrArg List.length hkinds
    rw [List.length_map, List.length_append, List.length_singleton] at hlength
    omega
  obtain ⟨t', hfunction, harena, hrest⟩ := function_of_statements hinner hkinds hkinds' hbody hfuel
  have hend : t'.kind = .eof := State.kind_of_rest hrest
  split at h
  · cases h
    refine ⟨⟨t', ?_, harena⟩, body, Arena.get_push_self _ _⟩
    have hkeyword : (⟨.empty, tokens'⟩ : State).kind = .ident "function" :=
      State.kind_of_rest hkinds'
    exact program_of_function hkeyword hfunction hend
  · cases h

end Parser

/-- Statements that are accepted are accepted in the braces of a function, which
    has no name and no parameters, and give the same nodes there. -/
theorem parseFunction_enclosed {source : String} {arena : Arena} {root : Id}
    (h : parseFunction source = .ok (arena, root))
    (hbare : ∀ tokens, tokenize source = .ok tokens →
      tokens.head?.map (·.kind) ≠ some (.ident "function")) :
    parseFunction ("function () \x7b\n" ++ source ++ "\n\x7d") = .ok (arena, root) ∧
      ∃ body, arena.get root = .function none [] body := by
  obtain ⟨tokens, rest, htokens, hprogram⟩ := parseFunction_eq_ok_iff.mp h
  obtain ⟨kinds, hkinds, hreads⟩ := Lexer.reads_enclosed htokens
  obtain ⟨tokens', htokens', hkinds'⟩ := hreads 0
  have hinner : .eof ∉ kinds := by
    obtain ⟨kinds', hends, hinner⟩ := Lexer.tokensFrom_ends htokens
    rwa [List.append_cancel_right (hkinds.symm.trans hends)]
  -- The parser looks at the first token that is left, and there is always one.
  have hkind : (⟨.empty, tokens⟩ : Parser.State).kind ≠ .ident "function" := by
    intro hkind
    refine hbare tokens htokens ?_
    cases tokens with
    | nil => cases hkind
    | cons token rest => exact congrArg some hkind
  obtain ⟨⟨⟨arena', rest'⟩, hrun, harena⟩, hroot⟩ :=
    Parser.program_enclosed hinner hkinds hkinds' hkind hprogram
  obtain rfl : arena' = arena := harena
  exact ⟨parseFunction_eq_ok_iff.mpr ⟨tokens', rest', htokens', hrun⟩, hroot⟩

theorem parseFunction_enclosed_comment : ∃ arena root,
    parseFunction "return a // b" = .ok (arena, root) ∧
      (∀ tokens, tokenize "return a // b" = .ok tokens →
        tokens.head?.map (·.kind) ≠ some (.ident "function")) ∧
      parseFunction "function () \x7b\nreturn a // b\n\x7d" = .ok (arena, root) ∧
        ∃ body, arena.get root = .function none [] body := by
  have hread : parseFunction "return a // b" =
      .ok (⟨#[.ident "a", .ret (some 0), .function none [] [1]]⟩, 2) :=
    parseFunction_of_nodes (by decide +kernel)
  have hbare : ∀ tokens, tokenize "return a // b" = .ok tokens →
      tokens.head?.map (·.kind) ≠ some (.ident "function") := by
    intro tokens htokens
    have hfirst : (tokenize "return a // b").toOption.bind (·.head?.map (·.kind)) =
        some (.ident "return") := by decide +kernel
    rw [htokens] at hfirst
    change tokens.head?.map (·.kind) = _ at hfirst
    rw [hfirst]
    decide
  have htext : "function () \x7b\n" ++ "return a // b" ++ "\n\x7d" =
      "function () \x7b\nreturn a // b\n\x7d" := by decide
  have henclosed := parseFunction_enclosed hread hbare
  rw [htext] at henclosed
  exact ⟨_, _, hread, hbare, henclosed⟩

end Script

end RenderFold
