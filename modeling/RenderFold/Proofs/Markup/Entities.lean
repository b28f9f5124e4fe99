import RenderFold.Markup.Escape

/-!
# Entities

The characters of escaped text. Special characters are replaced one by one, so
nothing is lost: whoever reads the five entities back gets the text. No entity
has a special character in it except for the `&` that it begins with, so
escaped text has none of the others, and an `&` only where an entity begins.

## Main definitions

* `specials`: The special characters.
* `unescape`: Reading the entities back.

## Theorems

* `unescape_escape`: Nothing is lost.
* `not_mem_flatMap_escapeChar`: Escaped text has no special characters except
  for `&`.
* `entity_of_flatMap`: Every `&` in escaped text begins an entity.
-/

namespace RenderFold

namespace Markup

/-- The special characters. -/
def specials : List Char := ['&', '<', '>', '"', '\'']

variable {c : Char} {text : List Char}

theorem entity?_eq_none_iff : entity? c = none ↔ c ∉ specials := by
  unfold specials
  simp only [List.mem_cons, List.not_mem_nil, or_false, not_or]
  constructor
  · intro h
    refine ⟨?_, ?_, ?_, ?_, ?_⟩ <;> rintro rfl <;> cases h
  · rintro ⟨hand, hless, hgreater, hdouble, hsingle⟩
    unfold entity?
    split
    · exact absurd rfl hand
    · exact absurd rfl hless
    · exact absurd rfl hgreater
    · exact absurd rfl hdouble
    · exact absurd rfl hsingle
    · rfl

theorem escapeChar_of_none (h : entity? c = none) : escapeChar c = [c] := by
  rw [escapeChar, h]

theorem escapeChar_of_some {entity : String} (h : entity? c = some entity) :
    escapeChar c = entity.toList := by
  rw [escapeChar, h]

/-- A text without special characters is written as it is. -/
theorem flatMap_escapeChar_of_none (h : ∀ c ∈ text, entity? c = none) :
    text.flatMap escapeChar = text := by
  induction text with
  | nil => rfl
  | cons c text ih =>
      obtain ⟨hc, htext⟩ := List.forall_mem_cons.mp h
      rw [List.flatMap_cons, escapeChar_of_none hc, ih htext, List.singleton_append]

theorem needsEscape_eq_false_iff {text : String} :
    needsEscape text = false ↔ ∀ c ∈ specials, c ∉ text.toList := by
  rw [needsEscape, List.any_eq_false]
  simp only [Bool.not_eq_true, Option.isSome_eq_false_iff, Option.isNone_iff_eq_none,
    entity?_eq_none_iff]
  exact ⟨fun h c hc htext => h c htext hc, fun h c htext hc => h c hc htext⟩

/-- A text without special characters stays as it is. -/
theorem escape_of_needsEscape {text : String} (h : needsEscape text = false) :
    escape text = text := by
  have hnone : ∀ c ∈ text.toList, entity? c = none := fun c hc =>
    Option.not_isSome_iff_eq_none.mp (List.any_eq_false.mp h c hc)
  rw [escape, flatMap_escapeChar_of_none hnone, String.ofList_toList]

/-- Read the entities in a text back. -/
def unescapeChars : List Char → List Char
  | '&' :: 'a' :: 'm' :: 'p' :: ';' :: rest => '&' :: unescapeChars rest
  | '&' :: 'l' :: 't' :: ';' :: rest => '<' :: unescapeChars rest
  | '&' :: 'g' :: 't' :: ';' :: rest => '>' :: unescapeChars rest
  | '&' :: 'q' :: 'u' :: 'o' :: 't' :: ';' :: rest => '"' :: unescapeChars rest
  | '&' :: '#' :: '3' :: '9' :: ';' :: rest => '\'' :: unescapeChars rest
  | c :: rest => c :: unescapeChars rest
  | [] => []

/-- The text that escaped text stands for. -/
def unescape (text : String) : String := String.ofList (unescapeChars text.toList)

theorem unescapeChars_cons (hc : c ≠ '&') (rest : List Char) :
    unescapeChars (c :: rest) = c :: unescapeChars rest := by
  rw [unescapeChars]
  all_goals exact fun _ h => absurd h hc

/-- What a character is written as is read back. -/
theorem unescapeChars_escapeChar (c : Char) (rest : List Char) :
    unescapeChars (escapeChar c ++ rest) = c :: unescapeChars rest := by
  cases hentity : entity? c with
  | none =>
      have hc : c ≠ '&' := by
        rintro rfl
        cases hentity
      rw [escapeChar_of_none hentity, List.singleton_append, unescapeChars_cons hc]
  | some entity =>
      rw [escapeChar_of_some hentity]
      unfold entity? at hentity
      split at hentity <;> cases hentity <;> rfl

/-- Nothing is lost in escaping. -/
theorem unescape_escape (text : String) : unescape (escape text) = text := by
  have hchars (text : List Char) : unescapeChars (text.flatMap escapeChar) = text := by
    induction text with
    | nil => rfl
    | cons c text ih => rw [List.flatMap_cons, unescapeChars_escapeChar, ih]
  rw [unescape, escape, String.toList_ofList, hchars, String.ofList_toList]

/-- An entity has no special character except for the first one. -/
theorem entity?_shape {entity : String} (h : entity? c = some entity) :
    ∃ tail, entity.toList = '&' :: tail ∧ ∀ d ∈ tail, d ∉ specials := by
  have hplain {tail : List Char} (h : tail.all (fun d => (entity? d).isNone) = true) :
      ∀ d ∈ tail, d ∉ specials := fun d hd =>
    entity?_eq_none_iff.mp (Option.isNone_iff_eq_none.mp (List.all_eq_true.mp h d hd))
  unfold entity? at h
  split at h <;> cases h <;> exact ⟨_, rfl, hplain rfl⟩

/-- Escaped text has no special characters except for `&`. -/
theorem not_mem_flatMap_escapeChar (hspecial : c ∈ specials) (hc : c ≠ '&') (text : List Char) :
    c ∉ text.flatMap escapeChar := by
  intro hmem
  obtain ⟨d, -, hmem⟩ := List.mem_flatMap.mp hmem
  cases hentity : entity? d with
  | none =>
      rw [escapeChar_of_none hentity, List.mem_singleton] at hmem
      exact entity?_eq_none_iff.mp hentity (hmem ▸ hspecial)
  | some entity =>
      obtain ⟨tail, hshape, htail⟩ := entity?_shape hentity
      rw [escapeChar_of_some hentity, hshape] at hmem
      exact (List.mem_cons.mp hmem).elim hc fun hmem => htail c hmem hspecial

/-- An `&` in what a character is written as begins the entity. -/
theorem entity_of_escapeChar {before after : List Char}
    (h : escapeChar c = before ++ '&' :: after) :
    before = [] ∧ ∃ entity, entity? c = some entity ∧ entity.toList = '&' :: after := by
  have hspecial : '&' ∈ specials := by decide
  have hmem : '&' ∈ before ++ '&' :: after := List.mem_append_right _ List.mem_cons_self
  cases hentity : entity? c with
  | none =>
      rw [← h, escapeChar_of_none hentity, List.mem_singleton] at hmem
      exact absurd (hmem ▸ hspecial) (entity?_eq_none_iff.mp hentity)
  | some entity =>
      obtain ⟨tail, hshape, htail⟩ := entity?_shape hentity
      rw [escapeChar_of_some hentity] at h
      cases before with
      | nil => exact ⟨rfl, entity, rfl, h⟩
      | cons d before =>
          rw [hshape] at h
          obtain ⟨-, rfl⟩ := List.cons.inj h
          exact absurd hspecial (htail '&' (List.mem_append_right _ List.mem_cons_self))

/-- Every `&` in escaped text begins an entity. -/
theorem entity_of_flatMap {before after : List Char}
    (h : text.flatMap escapeChar = before ++ '&' :: after) :
    ∃ c entity, entity? c = some entity ∧ entity.toList <+: '&' :: after := by
  induction text generalizing before with
  | nil => exact absurd h.symm (List.append_ne_nil_of_right_ne_nil _ (List.cons_ne_nil _ _))
  | cons c text ih =>
      -- The `&` is in what the first character is written as, or in the rest.
      rw [List.flatMap_cons] at h
      rcases List.append_eq_append_iff.mp h with ⟨rest, -, hrest⟩ | ⟨rest, hrest, hafter⟩
      · exact ih hrest
      · cases rest with
        | nil => exact ih (hafter.symm.trans (List.nil_append _).symm)
        | cons d more =>
            obtain ⟨rfl, hafter⟩ := List.cons.inj hafter
            obtain ⟨-, entity, hentity, hshape⟩ := entity_of_escapeChar hrest
            refine ⟨c, entity, hentity, ?_⟩
            rw [hshape, hafter]
            exact List.prefix_append _ _

end Markup

end RenderFold
