import RenderFold.Script.Lexer
import Mathlib.Data.String.Basic

/-!
# Quoted Texts

What is accepted between two quotes, and what it stands for. The body of a
quoted text goes up to the first quote that is not escaped. It may hold any
character but a line feed by itself, any character behind a backslash, and the
code of a character in four digits behind `\u`.

The grammar is written down here as a relation between the body and the
characters that it stands for, with what may stand in the first place of a code
left open. The reader accepts a plus sign there as well as a digit. So it
accepts all codes in hexadecimal digits, and beyond that just those that begin
with the sign.

## Main definitions

* `Lexer.Inner`: Every quote in a body is escaped.
* `Lexer.Decodes`: The characters that a body stands for.
* `Lexer.Quotation`: A quoted text at the beginning of what is left.
* `Lexer.signed`: A code in a body begins with a plus sign.

## Theorems

* `readQuoted_decodes`, `Decodes.readQuoted_eq`: What is accepted follows the
  grammar, and the other way round.
* `Decodes.hex_iff`: Only the plus sign is no hexadecimal digit.
* `readToken_quotation_iff`: The quoted texts that are accepted.
-/

namespace RenderFold

namespace Script

namespace Lexer

variable {start offset code : Nat} {quote c char : Char} {text body out rest : List Char}
  {read : Read TokenKind} {lead : Char → Option Nat}

/-- A body in which the quote only stands behind a backslash, and every
    backslash has something behind it. -/
inductive Inner (quote : Char) : List Char → Prop where
  | nil : Inner quote []
  | plain {c : Char} {body : List Char} (hescape : c ≠ '\\') (hquote : c ≠ quote)
      (h : Inner quote body) : Inner quote (c :: body)
  | escape {c : Char} {body : List Char} (h : Inner quote body) : Inner quote ('\\' :: c :: body)

/-- The characters that a body stands for. A code is made of what `lead` gives
    for its first character and of three hexadecimal digits. -/
inductive Decodes (lead : Char → Option Nat) : List Char → List Char → Prop where
  | nil : Decodes lead [] []
  | plain {c : Char} {body out : List Char} (hescape : c ≠ '\\') (hline : c ≠ '\n')
      (h : Decodes lead body out) : Decodes lead (c :: body) (c :: out)
  | control {c char : Char} {body out : List Char}
      (hc : (c, char) ∈ [('n', '\n'), ('r', '\r'), ('t', '\t'), ('0', '\x00')])
      (h : Decodes lead body out) : Decodes lead ('\\' :: c :: body) (char :: out)
  | itself {c : Char} {body out : List Char} (hc : c ∉ ['n', 'r', 't', '0', 'u'])
      (h : Decodes lead body out) : Decodes lead ('\\' :: c :: body) (c :: out)
  | code {a b c d char : Char} {w x y z : Nat} {body out : List Char} (ha : lead a = some w)
      (hb : Text.hexDigit? b = some x) (hc : Text.hexDigit? c = some y)
      (hd : Text.hexDigit? d = some z) (hchar : char.toNat = ((w * 16 + x) * 16 + y) * 16 + z)
      (h : Decodes lead body out) :
      Decodes lead ('\\' :: 'u' :: a :: b :: c :: d :: body) (char :: out)

/-- After an opening quote at `start`, `text` begins with the body of a quoted
    text and its closing quote, and this is what was read. -/
def Quotation (lead : Char → Option Nat) (quote : Char) (start : Nat) (text : List Char)
    (read : Read TokenKind) : Prop :=
  ∃ body out, text = body ++ quote :: read.rest ∧ Inner quote body ∧ Decodes lead body out ∧
    read.value = .str (String.ofList out) ∧ read.offset = start + 2 + String.utf8Len body

/-- What may stand in the first place of a code: a plus sign or a digit. -/
def signedDigit? (c : Char) : Option Nat := if c = '+' then some 0 else Text.hexDigit? c

/-- Whether a code in a body begins with a plus sign. -/
def signed : List Char → Bool
  | '\\' :: c :: rest => (c = 'u' && rest.head? = some '+') || signed rest
  | _ :: rest => signed rest
  | [] => false

theorem escapeCode?_eq_some_iff {a b c d : Char} : escapeCode? a b c d = some code ↔
    ∃ w x y z, signedDigit? a = some w ∧ Text.hexDigit? b = some x ∧ Text.hexDigit? c = some y ∧
      Text.hexDigit? d = some z ∧ code = ((w * 16 + x) * 16 + y) * 16 + z := by
  have hbind : escapeCode? a b c d = (signedDigit? a).bind fun w => (Text.hexDigit? b).bind fun x =>
      (Text.hexDigit? c).bind fun y => (Text.hexDigit? d).bind fun z =>
        some (((w * 16 + x) * 16 + y) * 16 + z) := by
    unfold escapeCode? signedDigit?
    split <;> rfl
  rw [hbind]
  simp only [Option.bind_eq_some_iff, Option.some.injEq]
  constructor
  · rintro ⟨w, ha, x, hb, y, hc, z, hd, rfl⟩
    exact ⟨w, x, y, z, ha, hb, hc, hd, rfl⟩
  · rintro ⟨w, x, y, z, ha, hb, hc, hd, rfl⟩
    exact ⟨w, ha, x, hb, y, hc, z, hd, rfl⟩

theorem toNat_ofNat (h : code.isValidChar) : (Char.ofNat code).toNat = code := by
  unfold Char.ofNat
  rw [dif_pos h]
  rfl

/-- Every code but that of a surrogate is the code of a character. -/
theorem scalar?_eq_some_iff : scalar? code = some char ↔ char.toNat = code := by
  have hvalid : (decide (code < 0xD800) || decide (0xDFFF < code) && decide (code < 0x110000)) =
      true ↔ code.isValidChar := by
    simp only [Bool.or_eq_true, Bool.and_eq_true, decide_eq_true_eq, Nat.isValidChar]
  unfold scalar?
  constructor
  · intro h
    split at h
    · next hcode =>
        cases h
        exact toNat_ofNat (hvalid.mp hcode)
    · cases h
  · rintro rfl
    rw [if_pos (hvalid.mpr char.valid), Char.ofNat_toNat]

/-- A digit is no quote, starts no escape and ends no line. -/
theorem plain_of_hexDigit? {w : Nat} (h : Text.hexDigit? c = some w) :
    c ∉ ['\\', '"', '\'', '+'] ∧ c.utf8Size = 1 := by
  constructor
  · simp only [List.mem_cons, List.not_mem_nil, or_false, not_or]
    refine ⟨?_, ?_, ?_, ?_⟩
    all_goals
      rintro rfl
      cases h
  · rw [Char.utf8Size_eq_one_iff]
    unfold Text.hexDigit? at h
    simp only [Bool.and_eq_true, decide_eq_true_eq, Char.le_def] at h
    grind

theorem plain_of_signedDigit? {w : Nat} (h : signedDigit? c = some w) :
    c ∉ ['\\', '"', '\''] ∧ c.utf8Size = 1 := by
  unfold signedDigit? at h
  split at h
  · next hc =>
      subst hc
      decide
  · obtain ⟨hc, hsize⟩ := plain_of_hexDigit? h
    exact ⟨fun hmem => hc (List.mem_append_left ['+'] hmem), hsize⟩

theorem escaped_of_mem (h : (c, char) ∈ [('n', '\n'), ('r', '\r'), ('t', '\t'), ('0', '\x00')]) :
    c ≠ 'u' ∧ escaped c = char := by
  simp only [List.mem_cons, List.not_mem_nil, or_false, Prod.mk.injEq] at h
  rcases h with ⟨rfl, rfl⟩ | ⟨rfl, rfl⟩ | ⟨rfl, rfl⟩ | ⟨rfl, rfl⟩ <;> decide

theorem escaped_of_not_mem (h : c ∉ ['n', 'r', 't', '0', 'u']) : c ≠ 'u' ∧ escaped c = c := by
  simp only [List.mem_cons, List.not_mem_nil, or_false, not_or] at h
  obtain ⟨hn, hr, ht, hzero, hu⟩ := h
  refine ⟨hu, ?_⟩
  unfold escaped
  split <;> first | rfl | contradiction

/-- What an escaped character stands for, unless it announces a code. -/
theorem decodes_escaped (hc : c ≠ 'u') (h : Decodes lead body out) :
    Decodes lead ('\\' :: c :: body) (escaped c :: out) := by
  by_cases hcontrol : c ∈ ['n', 'r', 't', '0']
  · refine .control ?_ h
    simp only [List.mem_cons, List.not_mem_nil, or_false] at hcontrol
    rcases hcontrol with rfl | rfl | rfl | rfl <;> decide
  · have hother : c ∉ ['n', 'r', 't', '0', 'u'] := by
      simp only [List.mem_cons, List.not_mem_nil, or_false, not_or] at hcontrol ⊢
      exact ⟨hcontrol.1, hcontrol.2.1, hcontrol.2.2.1, hcontrol.2.2.2, hc⟩
    rw [(escaped_of_not_mem hother).2]
    exact .itself hother h

theorem Inner.of_plain (hc : c ≠ '\\') (h : Inner quote (c :: body)) :
    c ≠ quote ∧ Inner quote body := by
  cases h with
  | plain _ hquote hbody => exact ⟨hquote, hbody⟩
  | escape => exact absurd rfl hc

theorem Inner.of_escape (h : Inner quote ('\\' :: c :: body)) : Inner quote body := by
  cases h with
  | plain hescape => exact absurd rfl hescape
  | escape hbody => exact hbody

section Codes

variable {a b d : Char} {w x y z : Nat}

/-- The characters of a code have nothing special about them. -/
theorem inner_code_iff (hquote : quote ∈ ['"', '\'']) (ha : signedDigit? a = some w)
    (hb : Text.hexDigit? b = some x) (hc : Text.hexDigit? c = some y)
    (hd : Text.hexDigit? d = some z) :
    Inner quote ('\\' :: 'u' :: a :: b :: c :: d :: body) ↔ Inner quote body := by
  have hplain {e : Char} (he : e ∉ ['\\', '"', '\'']) : e ≠ '\\' ∧ e ≠ quote :=
    ⟨fun heq => he (heq ▸ List.mem_cons_self), fun heq => he (List.mem_cons_of_mem _ (heq ▸ hquote))⟩
  have hdigit {e : Char} {n : Nat} (he : Text.hexDigit? e = some n) : e ≠ '\\' ∧ e ≠ quote :=
    hplain fun hmem => (plain_of_hexDigit? he).1 (List.mem_append_left ['+'] hmem)
  obtain ⟨haescape, haquote⟩ := hplain (plain_of_signedDigit? ha).1
  constructor
  · intro h
    obtain ⟨-, h⟩ := h.of_escape.of_plain haescape
    obtain ⟨-, h⟩ := h.of_plain (hdigit hb).1
    obtain ⟨-, h⟩ := h.of_plain (hdigit hc).1
    exact (h.of_plain (hdigit hd).1).2
  · intro h
    exact .escape (.plain haescape haquote (.plain (hdigit hb).1 (hdigit hb).2
      (.plain (hdigit hc).1 (hdigit hc).2 (.plain (hdigit hd).1 (hdigit hd).2 h))))

theorem utf8Len_code (ha : signedDigit? a = some w) (hb : Text.hexDigit? b = some x)
    (hc : Text.hexDigit? c = some y) (hd : Text.hexDigit? d = some z) :
    String.utf8Len ('\\' :: 'u' :: a :: b :: c :: d :: body) = String.utf8Len body + 6 := by
  have hslash : ('\\').utf8Size = 1 := rfl
  have hu : ('u').utf8Size = 1 := rfl
  simp only [String.utf8Len_cons, (plain_of_signedDigit? ha).2, (plain_of_hexDigit? hb).2,
    (plain_of_hexDigit? hc).2, (plain_of_hexDigit? hd).2, hslash, hu]

theorem signed_plain (hc : c ≠ '\\') (rest : List Char) : signed (c :: rest) = signed rest := by
  rw [signed]
  exact fun _ _ h => absurd h hc

theorem signed_escape (hc : c ≠ 'u') (rest : List Char) :
    signed ('\\' :: c :: rest) = signed rest := by
  rw [signed, decide_eq_false hc, Bool.false_and, Bool.false_or]

/-- A code has a sign if it begins with one. -/
theorem signed_code (ha : signedDigit? a = some w) (hb : Text.hexDigit? b = some x)
    (hc : Text.hexDigit? c = some y) (hd : Text.hexDigit? d = some z) :
    signed ('\\' :: 'u' :: a :: b :: c :: d :: body) = (decide (a = '+') || signed body) := by
  have hplain {e : Char} {n : Nat} (he : Text.hexDigit? e = some n) : e ≠ '\\' :=
    fun heq => (plain_of_hexDigit? he).1 (heq ▸ List.mem_cons_self)
  have haescape : a ≠ '\\' := fun heq => (plain_of_signedDigit? ha).1 (heq ▸ List.mem_cons_self)
  rw [signed, signed_plain haescape, signed_plain (hplain hb), signed_plain (hplain hc),
    signed_plain (hplain hd)]
  simp only [List.head?_cons, Option.some.injEq, decide_true, Bool.true_and]

end Codes

theorem quote_ne_backslash (hquote : quote ∈ ['"', '\'']) : quote ≠ '\\' := by
  rintro rfl
  exact absurd hquote (by decide)

/-- What is accepted is the body of a quoted text. -/
theorem readQuoted_decodes (hquote : quote ∈ ['"', '\''])
    (h : readQuoted start quote out offset text = .ok read) :
    ∃ body decoded, text = body ++ quote :: read.rest ∧ Inner quote body ∧
      Decodes signedDigit? body decoded ∧
      read.value = .str (String.ofList (out.reverse ++ decoded)) ∧
      read.offset = offset + String.utf8Len body + 1 := by
  fun_induction readQuoted start quote out offset text with
  | case1 | case2 | case3 | case5 | case7 | case9 => cases h
  | case4 out offset a b c d text code hcode char hchar ih =>
      obtain ⟨body, decoded, rfl, hinner, hdecodes, hvalue, hoffset⟩ := ih h
      obtain ⟨w, x, y, z, ha, hb, hc, hd, rfl⟩ := escapeCode?_eq_some_iff.mp hcode
      refine ⟨'\\' :: 'u' :: a :: b :: c :: d :: body, char :: decoded, rfl,
        (inner_code_iff hquote ha hb hc hd).mpr hinner,
        .code ha hb hc hd (scalar?_eq_some_iff.mp hchar) hdecodes, ?_, ?_⟩
      · rw [hvalue, List.reverse_cons, List.append_assoc, List.singleton_append]
      · rw [hoffset, utf8Len_code ha hb hc hd]
        omega
  | case6 out offset c text _ hc ih =>
      obtain ⟨body, decoded, rfl, hinner, hdecodes, hvalue, hoffset⟩ := ih h
      refine ⟨'\\' :: c :: body, escaped c :: decoded, rfl, .escape hinner,
        decodes_escaped hc hdecodes, ?_, ?_⟩
      · rw [hvalue, List.reverse_cons, List.append_assoc, List.singleton_append]
      · have hslash : ('\\').utf8Size = 1 := rfl
        rw [hoffset, String.utf8Len_cons, String.utf8Len_cons, hslash]
        omega
  | case8 out offset text _ _ hescape hlone =>
      cases h
      exact ⟨[], [], rfl, .nil, .nil, by rw [List.append_nil], rfl⟩
  | case10 out offset c text _ _ hescape hlone hne hbreak ih =>
      have hc : c ≠ '\\' := ne_backslash hescape hlone
      obtain ⟨body, decoded, rfl, hinner, hdecodes, hvalue, hoffset⟩ := ih h
      refine ⟨c :: body, c :: decoded, rfl, .plain hc hne hinner, .plain hc hbreak hdecodes, ?_, ?_⟩
      · rw [hvalue, List.reverse_cons, List.append_assoc, List.singleton_append]
      · rw [hoffset, String.utf8Len_cons]
        omega

/-- The body of a quoted text is accepted. -/
theorem Decodes.readQuoted_eq {decoded : List Char} (hquote : quote ∈ ['"', '\''])
    (h : Decodes signedDigit? body decoded) (hinner : Inner quote body) (start : Nat)
    (rest : List Char) : ∀ out offset, readQuoted start quote out offset (body ++ quote :: rest) =
      .ok ⟨.str (String.ofList (out.reverse ++ decoded)), offset + String.utf8Len body + 1, rest⟩ := by
  have hslash : ('\\').utf8Size = 1 := rfl
  -- An escape that is no code is read by one equation, whatever it stands for.
  have hescape {c char : Char} {body decoded : List Char} (hc : c ≠ 'u' ∧ escaped c = char)
      (ih : ∀ out offset, readQuoted start quote out offset (body ++ quote :: rest) =
        .ok ⟨.str (String.ofList (out.reverse ++ decoded)), offset + String.utf8Len body + 1, rest⟩) :
      ∀ out offset, readQuoted start quote out offset ('\\' :: c :: body ++ quote :: rest) =
        .ok ⟨.str (String.ofList (out.reverse ++ char :: decoded)),
          offset + String.utf8Len ('\\' :: c :: body) + 1, rest⟩ := by
    intro out offset
    rw [List.cons_append, List.cons_append, readQuoted_escape hc.1, ih, hc.2, List.reverse_cons,
      List.append_assoc, List.singleton_append, String.utf8Len_cons, String.utf8Len_cons, hslash]
    congr 2
    omega
  induction h with
  | nil =>
      intro out offset
      rw [List.nil_append, readQuoted_plain (quote_ne_backslash hquote), if_pos rfl, List.append_nil]
      rfl
  | @plain c body decoded hc hline _ ih =>
      intro out offset
      obtain ⟨hne, hbody⟩ := hinner.of_plain hc
      rw [List.cons_append, readQuoted_plain hc, if_neg hne, if_neg hline, ih hbody,
        List.reverse_cons, List.append_assoc, List.singleton_append, String.utf8Len_cons]
      congr 2
      omega
  | control hc _ ih => exact hescape (escaped_of_mem hc) (ih hinner.of_escape)
  | itself hc _ ih => exact hescape (escaped_of_not_mem hc) (ih hinner.of_escape)
  | @code a b c d char w x y z body decoded ha hb hc hd hchar _ ih =>
      intro out offset
      have hcode : escapeCode? a b c d = some char.toNat :=
        escapeCode?_eq_some_iff.mpr ⟨w, x, y, z, ha, hb, hc, hd, hchar⟩
      have hbody := (inner_code_iff hquote ha hb hc hd).mp hinner
      simp only [List.cons_append]
      rw [readQuoted, hcode]
      dsimp only
      rw [scalar?_eq_some_iff.mpr rfl]
      dsimp only
      rw [ih hbody, List.reverse_cons, List.append_assoc, List.singleton_append,
        utf8Len_code ha hb hc hd]
      congr 2
      omega

theorem ne_plus_of_hexDigit? {w : Nat} (h : Text.hexDigit? c = some w) : c ≠ '+' := by
  rintro rfl
  cases h

theorem signedDigit?_of_hexDigit? {w : Nat} (h : Text.hexDigit? c = some w) :
    signedDigit? c = some w := by
  unfold signedDigit?
  rw [if_neg (ne_plus_of_hexDigit? h), h]

/-- Hexadecimal digits are among what may stand first in a code. -/
theorem Decodes.of_hex (h : Decodes Text.hexDigit? body out) : Decodes signedDigit? body out := by
  induction h with
  | nil => exact .nil
  | plain hescape hline _ ih => exact .plain hescape hline ih
  | control hc _ ih => exact .control hc ih
  | itself hc _ ih => exact .itself hc ih
  | code ha hb hc hd hchar _ ih => exact .code (signedDigit?_of_hexDigit? ha) hb hc hd hchar ih

/-- Only the plus sign is no hexadecimal digit. -/
theorem Decodes.hex_iff (h : Decodes signedDigit? body out) :
    Decodes Text.hexDigit? body out ↔ signed body = false := by
  constructor
  · intro hhex
    clear h
    induction hhex with
    | nil => rfl
    | plain hescape _ _ ih => rw [signed_plain hescape, ih]
    | control hc _ ih => rw [signed_escape (escaped_of_mem hc).1, ih]
    | itself hc _ ih => rw [signed_escape (escaped_of_not_mem hc).1, ih]
    | code ha hb hc hd _ _ ih =>
        rw [signed_code (signedDigit?_of_hexDigit? ha) hb hc hd, ih,
          decide_eq_false (ne_plus_of_hexDigit? ha), Bool.or_self]
  · intro hsigned
    induction h with
    | nil => exact .nil
    | plain hescape hline _ ih =>
        rw [signed_plain hescape] at hsigned
        exact .plain hescape hline (ih hsigned)
    | control hc _ ih =>
        rw [signed_escape (escaped_of_mem hc).1] at hsigned
        exact .control hc (ih hsigned)
    | itself hc _ ih =>
        rw [signed_escape (escaped_of_not_mem hc).1] at hsigned
        exact .itself hc (ih hsigned)
    | code ha hb hc hd hchar _ ih =>
        rw [signed_code ha hb hc hd, Bool.or_eq_false_iff, decide_eq_false_iff_not] at hsigned
        have hdigit := ha
        unfold signedDigit? at hdigit
        rw [if_neg hsigned.1] at hdigit
        exact .code hdigit hb hc hd hchar (ih hsigned.2)

theorem readToken_quoted (hquote : quote ∈ ['"', '\'']) (start : Nat) (text : List Char) :
    readToken start quote text = readQuoted start quote [] (start + 1) text := by
  have hor : (decide (quote = '"') || decide (quote = '\'')) = true := by
    simpa only [List.mem_cons, List.not_mem_nil, or_false, Bool.or_eq_true, decide_eq_true_eq]
      using hquote
  unfold readToken
  rw [if_pos hor]

/-- Between two quotes, the reader accepts codes of four digits and of a plus
    sign and three digits. So it accepts the quoted texts whose codes are
    hexadecimal and no others, except where a code in what it accepts begins
    with the sign. -/
theorem readToken_quotation_iff (hquote : quote ∈ ['"', '\'']) (start : Nat) (text : List Char)
    (read : Read TokenKind) :
    (readToken start quote text = .ok read ↔ Quotation signedDigit? quote start text read) ∧
      ((readToken start quote text = .ok read ↔ Quotation Text.hexDigit? quote start text read) ↔
        ¬ ∃ body, readToken start quote text = .ok read ∧ text = body ++ quote :: read.rest ∧
          signed body = true) := by
  have hiff : readToken start quote text = .ok read ↔
      Quotation signedDigit? quote start text read := by
    rw [readToken_quoted hquote]
    constructor
    · intro h
      obtain ⟨body, out, htext, hinner, hdecodes, hvalue, hoffset⟩ := readQuoted_decodes hquote h
      refine ⟨body, out, htext, hinner, hdecodes, hvalue, ?_⟩
      omega
    · rintro ⟨body, out, htext, hinner, hdecodes, hvalue, hoffset⟩
      obtain ⟨value, offset, rest⟩ := read
      rw [htext, hdecodes.readQuoted_eq hquote hinner]
      dsimp only at hvalue hoffset ⊢
      rw [hvalue, hoffset, List.reverse_nil, List.nil_append]
      congr 2
      omega
  refine ⟨hiff, ?_⟩
  constructor
  · rintro hhex ⟨body, hread, htext, hsigned⟩
    obtain ⟨body', out, htext', hinner, hdecodes, -⟩ := hhex.mp hread
    -- The rest that was read says where the body ends.
    have hbody : body = body' := List.append_cancel_right (htext.symm.trans htext')
    rw [hbody, hdecodes.of_hex.hex_iff.mp hdecodes] at hsigned
    cases hsigned
  · intro hnone
    constructor
    · intro hread
      obtain ⟨body, out, htext, hinner, hdecodes, hvalue⟩ := hiff.mp hread
      refine ⟨body, out, htext, hinner, hdecodes.hex_iff.mpr ?_, hvalue⟩
      exact Bool.eq_false_iff.mpr fun hsigned => hnone ⟨body, hread, htext, hsigned⟩
    · rintro ⟨body, out, htext, hinner, hdecodes, hvalue⟩
      exact hiff.mpr ⟨body, out, htext, hinner, hdecodes.of_hex, hvalue⟩

theorem readToken_quotation_letter :
    '"' ∈ ['"', '\''] ∧ Quotation Text.hexDigit? '"' 0 "\\u0041\";".toList ⟨.str "A", 8, [';']⟩ := by
  have hread : readToken 0 '"' "\\u0041\";".toList = .ok ⟨.str "A", 8, [';']⟩ := rfl
  refine ⟨by decide, ((readToken_quotation_iff (by decide) _ _ _).2.mpr ?_).mp hread⟩
  rintro ⟨body, -, htext, hsigned⟩
  have hbody : "\\u0041".toList = body := List.append_cancel_right htext
  rw [← hbody] at hsigned
  cases hsigned

/-- The digits of this code begin with a sign, and it is accepted. -/
theorem readToken_signed_letter :
    readToken 0 '"' "\\u+041\"".toList = .ok ⟨.str "A", 8, []⟩ ∧
      ∀ read, ¬ Quotation Text.hexDigit? '"' 0 "\\u+041\"".toList read := by
  refine ⟨rfl, ?_⟩
  rintro read ⟨body, out, htext, -, hdecodes, -⟩
  -- The only reading of the first two characters is that a code follows.
  cases hdecodes <;>
    simp only [String.reduceToList, List.nil_append, List.cons_append, List.cons.injEq] at htext
  case nil => exact absurd htext.1 (by decide)
  case plain hescape _ _ => exact hescape htext.1.symm
  case control hc _ =>
    rw [← htext.2.1] at hc
    exact (escaped_of_mem hc).1 rfl
  case itself hc _ => exact hc (htext.2.1 ▸ by decide)
  case code ha _ _ _ _ _ =>
    rw [← htext.2.2.1] at ha
    cases ha

end Lexer

end Script

end RenderFold
