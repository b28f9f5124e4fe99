import RenderFold.Proofs.Script.Spelling

/-!
# How Expressions Begin

What the parser decides on before it reads an expression, it decides on the
first tokens. Parameters and an arrow make it an arrow function, `!` makes it a
negation, and `{` after an arrow is taken for a block. The tokens of a tree are
taken for none of these unless they are meant so.

To see whether a list of parameters comes next, the parser looks ahead for the
arrow. There are tokens it does not look beyond, and every expression that is
more than a name has one.

## Main definitions

* `Parser.unplaced`: Tokens of given kinds.

## Theorems

* `Parser.closesArrow_tokens`: No expression closes a list of parameters.
* `Parser.startsArrow_bareTokens`: Only arrow functions begin with parameters.
* `Printer.opensBrace_of_tokens`: What is written with `{` first begins so.
-/

namespace RenderFold

namespace Script

open Printer (tokens bareTokens precedence paramTokens postfixLevel arrowLevel)

namespace Parser

variable {kinds rest : List TokenKind} {tightness : Nat} {t : Tree} {node : Node Tree}

/-- Tokens of the given kinds, wherever they start. -/
def unplaced (kinds : List TokenKind) : List Token := kinds.map fun kind => ⟨kind, 0⟩

theorem closesArrow_kinds (tokens : List Token) :
    closesArrow tokens = closesArrow (unplaced (tokens.map (·.kind))) := by
  induction tokens with
  | nil => rfl
  | cons token rest ih =>
      obtain ⟨kind, offset⟩ := token
      cases kind with
      | ident name => exact ih
      | punct mark =>
          cases mark with
          | comma => exact ih
          | rightParen =>
              cases rest with
              | nil => rfl
              | cons next rest =>
                  obtain ⟨kind, offset⟩ := next
                  cases kind with
                  | punct mark => cases mark <;> rfl
                  | _ => rfl
          | _ => rfl
      | _ => rfl

/-- Where tokens start makes no difference to what the parser sees ahead. -/
theorem startsArrow_kinds (tokens : List Token) :
    startsArrow tokens = startsArrow (unplaced (tokens.map (·.kind))) := by
  cases tokens with
  | nil => rfl
  | cons token rest =>
      obtain ⟨kind, offset⟩ := token
      cases kind with
      | ident name =>
          cases rest with
          | nil => rfl
          | cons next rest =>
              obtain ⟨kind, offset⟩ := next
              cases kind with
              | punct mark => cases mark <;> rfl
              | _ => rfl
      | punct mark =>
          cases mark with
          | leftParen => exact closesArrow_kinds rest
          | _ => rfl
      | _ => rfl

theorem closesArrow_params (names : List String) :
    closesArrow (unplaced (paramTokens names ++ .punct .rightParen :: .punct .arrow :: rest)) =
      true := by
  induction names with
  | nil => rfl
  | cons name names ih =>
      cases names with
      | nil => rfl
      | cons next names => exact ih

/-- After a closed list of parameters there is an arrow. -/
theorem closesArrow_rightParen (h : closesArrow (unplaced (.punct .rightParen :: rest)) = true) :
    rest.head? = some (.punct .arrow) := by
  cases rest with
  | nil => cases h
  | cons kind rest =>
      cases kind with
      | punct mark =>
          cases mark with
          | arrow => rfl
          | _ => cases h
      | _ => cases h

/-- No expression closes a list of parameters: what closes it comes later. -/
theorem closesArrow_tokens (h : Expression t) :
    closesArrow (unplaced (tokens tightness t ++ rest)) = true →
      closesArrow (unplaced rest) = true := by
  have hplace : ∀ {node : Node Tree} {tightness : Nat} {rest : List TokenKind},
      (closesArrow (unplaced (bareTokens node ++ rest)) = true →
        closesArrow (unplaced rest) = true) →
      closesArrow (unplaced (tokens tightness (.mk node) ++ rest)) = true →
        closesArrow (unplaced rest) = true := by
    intro node tightness rest hbare h
    rw [tokens] at h
    split at h
    · cases h
    · exact hbare h
  -- The parser does not look beyond the mark after a left part.
  have hfirst : ∀ {left later rest : List TokenKind} {mark : Punct},
      (∀ {rest}, closesArrow (unplaced (left ++ rest)) = true →
        closesArrow (unplaced rest) = true) →
      closesArrow (unplaced (.punct mark :: (later ++ rest))) = false →
      closesArrow (unplaced (left ++ .punct mark :: later ++ rest)) = true →
        closesArrow (unplaced rest) = true := by
    intro left later rest mark ih hmark h
    rw [List.append_assoc] at h
    exact absurd (hmark.symm.trans (ih h)) Bool.false_ne_true
  induction h generalizing tightness rest with
  | bool | null | ident => exact hplace id
  | member htarget hproperty ih => exact hplace (hfirst ih rfl)
  | index htarget hposition ih => exact hplace (hfirst ih rfl)
  | call hcallee harguments ih => exact hplace (hfirst ih rfl)
  | @binary op left right hleft hright ih => exact hplace (hfirst ih (by cases op <;> rfl))
  | conditional htest hconsequent halternate ih => exact hplace (hfirst ih rfl)
  | _ => exact hplace fun h => Bool.noConfusion h

theorem tokens_zero (node : Node Tree) : tokens 0 (.mk node) = bareTokens node := by
  rw [tokens, if_neg (Nat.not_lt_zero _)]

/-- What is in parentheses does not begin with parameters. -/
theorem startsArrow_parens (h : Expression (.mk node))
    (hstarts : startsArrow (unplaced (.punct .leftParen :: (bareTokens node ++
      .punct .rightParen :: rest))) = true) : rest.head? = some (.punct .arrow) := by
  rw [← tokens_zero] at hstarts
  exact closesArrow_rightParen (closesArrow_tokens h hstarts)

theorem startsArrow_tokens (h : Expression t) :
    startsArrow (unplaced (tokens tightness t ++ rest)) = true →
      tightness ≤ arrowLevel ∧ precedence t.node = arrowLevel ∨
        rest.head? = some (.punct .arrow) := by
  have hplace : ∀ {node : Node Tree} {tightness : Nat} {rest : List TokenKind},
      Expression (.mk node) →
      (tightness ≤ precedence node → startsArrow (unplaced (bareTokens node ++ rest)) = true →
        tightness ≤ arrowLevel ∧ precedence node = arrowLevel ∨
          rest.head? = some (.punct .arrow)) →
      startsArrow (unplaced (tokens tightness (.mk node) ++ rest)) = true →
        tightness ≤ arrowLevel ∧ precedence node = arrowLevel ∨
          rest.head? = some (.punct .arrow) := by
    intro node tightness rest hnode hbare h
    rw [tokens] at h
    split at h
    · rw [List.cons_append, List.append_assoc] at h
      exact Or.inr (startsArrow_parens hnode h)
    · next hparens => exact hbare (Nat.le_of_not_lt hparens) h
  -- A left part stands in a place where no arrow function fits.
  have hfirst : ∀ {left : Tree} {place : Nat} {later rest : List TokenKind} {mark : Punct} {p : Prop},
      (∀ {rest}, startsArrow (unplaced (tokens place left ++ rest)) = true →
        place ≤ arrowLevel ∧ precedence left.node = arrowLevel ∨
          rest.head? = some (.punct .arrow)) →
      arrowLevel < place → mark ≠ .arrow →
      startsArrow (unplaced (tokens place left ++ .punct mark :: later ++ rest)) = true → p := by
    intro left place later rest mark p ih hplace hmark h
    rw [List.append_assoc] at h
    rcases ih h with ⟨hle, -⟩ | hhead
    · exact absurd hle (Nat.not_le_of_lt hplace)
    · exact absurd (TokenKind.punct.inj (Option.some.inj hhead)) hmark
  have hname : ∀ {name : String} {rest : List TokenKind},
      startsArrow (unplaced (.ident name :: rest)) = true → rest.head? = some (.punct .arrow) := by
    intro name rest h
    cases rest with
    | nil => cases h
    | cons kind rest =>
        cases kind with
        | punct mark =>
            cases mark with
            | arrow => rfl
            | _ => cases h
        | _ => cases h
  induction h generalizing tightness rest with
  | bool value => exact hplace (.bool value) fun _ h => Or.inr (hname h)
  | null => exact hplace .null fun _ h => Or.inr (hname h)
  | ident hident => exact hplace (.ident hident) fun _ h => Or.inr (hname h)
  | member htarget hproperty ih =>
      exact hplace (.member htarget hproperty) fun _ => hfirst ih (by decide) (by decide)
  | index htarget hposition ih =>
      exact hplace (.index htarget hposition) fun _ => hfirst ih (by decide) (by decide)
  | call hcallee harguments ih =>
      exact hplace (.call hcallee harguments) fun _ => hfirst ih (by decide) (by decide)
  | @binary op left right hleft hright ih =>
      exact hplace (.binary hleft hright) fun _ =>
        hfirst ih (by cases op <;> decide) (by cases op <;> decide)
  | conditional htest hconsequent halternate ih =>
      exact hplace (.conditional htest hconsequent halternate) fun _ =>
        hfirst ih (by decide) (by decide)
  | arrow hparams hbody => exact hplace (.arrow hparams hbody) fun hle _ => Or.inl ⟨hle, rfl⟩
  | str text => exact hplace (.str text) fun _ h => Bool.noConfusion h
  | num hbits => exact hplace (.num hbits) fun _ h => Bool.noConfusion h
  | array helements => exact hplace (.array helements) fun _ h => Bool.noConfusion h
  | object hproperties => exact hplace (.object hproperties) fun _ h => Bool.noConfusion h
  | not hargument => exact hplace (.not hargument) fun _ h => Bool.noConfusion h

/-- Only arrow functions begin with parameters. -/
theorem startsArrow_bareTokens (h : Expression (.mk node)) (hnode : precedence node ≠ arrowLevel)
    (hstarts : startsArrow (unplaced (bareTokens node ++ rest)) = true) :
    rest.head? = some (.punct .arrow) := by
  rw [← tokens_zero] at hstarts
  exact (startsArrow_tokens h hstarts).resolve_left fun harrow => hnode harrow.2

end Parser

namespace Printer

variable {kind : TokenKind} {rest : List TokenKind} {tightness : Nat} {t : Tree} {node : Node Tree}

/-- A tree with something after it begins as the tree does. -/
theorem tokens_cons_of_append (h : Expression t) {later : List TokenKind}
    (htokens : tokens tightness t ++ later = kind :: rest) :
    ∃ rest', tokens tightness t = kind :: rest' := by
  obtain ⟨first, rest', hfirst, -⟩ := tokens_begin h tightness
  rw [hfirst] at htokens
  cases htokens
  exact ⟨rest', hfirst⟩

/-- What begins with a mark other than a parenthesis is not in parentheses. -/
theorem bareTokens_of_tokens (hkind : kind ≠ .punct .leftParen)
    (h : tokens tightness (.mk node) = kind :: rest) :
    tightness ≤ precedence node ∧ bareTokens node = kind :: rest := by
  rw [tokens] at h
  split at h
  · cases h
    exact absurd rfl hkind
  · next hparens => exact ⟨Nat.le_of_not_lt hparens, h⟩

/-- Nothing that is accessed or called begins with `!`. -/
theorem tokens_ne_bang (h : Expression t) : tokens postfixLevel t ≠ .punct .bang :: rest := by
  intro htokens
  induction h generalizing rest with
  | member htarget hproperty ih =>
      obtain ⟨-, hbare⟩ := bareTokens_of_tokens (by decide) htokens
      obtain ⟨rest', htarget⟩ := tokens_cons_of_append htarget hbare
      exact ih htarget
  | index htarget hposition ih =>
      obtain ⟨-, hbare⟩ := bareTokens_of_tokens (by decide) htokens
      obtain ⟨rest', htarget⟩ := tokens_cons_of_append htarget hbare
      exact ih htarget
  | call hcallee harguments ih =>
      obtain ⟨-, hbare⟩ := bareTokens_of_tokens (by decide) htokens
      obtain ⟨rest', hcallee⟩ := tokens_cons_of_append hcallee hbare
      exact ih hcallee
  | @binary op => cases op <;> cases htokens
  | _ => cases htokens

/-- What is written with `{` first begins with an object literal. -/
theorem opensBrace_of_tokens (h : Expression t)
    (htokens : tokens tightness t = .punct .leftBrace :: rest) :
    opensBrace tightness t = true := by
  have hplace : ∀ {node : Node Tree} {tightness : Nat} {rest : List TokenKind},
      tokens tightness (.mk node) = .punct .leftBrace :: rest →
      (bareTokens node = .punct .leftBrace :: rest → bareOpensBrace node = true) →
        opensBrace tightness (.mk node) = true := by
    intro node tightness rest htokens hnode
    obtain ⟨hle, hbare⟩ := bareTokens_of_tokens (by decide) htokens
    rw [opensBrace, decide_eq_true hle, hnode hbare]
    rfl
  have hfirst : ∀ {left : Tree} {place : Nat} {later rest : List TokenKind}, Expression left →
      (∀ {rest}, tokens place left = .punct .leftBrace :: rest → opensBrace place left = true) →
      tokens place left ++ later = .punct .leftBrace :: rest → opensBrace place left = true := by
    intro left place later rest hleft ih htokens
    obtain ⟨rest', hbegins⟩ := tokens_cons_of_append hleft htokens
    exact ih hbegins
  induction h generalizing tightness rest with
  | object => exact hplace htokens fun _ => rfl
  | member htarget hproperty ih => exact hplace htokens (hfirst htarget ih)
  | index htarget hposition ih => exact hplace htokens (hfirst htarget ih)
  | call hcallee harguments ih => exact hplace htokens (hfirst hcallee ih)
  | binary hleft hright ih => exact hplace htokens (hfirst hleft ih)
  | conditional htest hconsequent halternate ih => exact hplace htokens (hfirst htest ih)
  | _ => exact hplace htokens fun h => by cases h

end Printer

end Script

end RenderFold
