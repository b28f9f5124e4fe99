/-!
# Blank Characters

Trimming a text and cutting it into words both stop at blank characters. The
blanks are those with the White_Space property, which reaches well beyond
ASCII.

## Main definitions

* `isBlank`: The White_Space property.
* `trim`: A text without blanks at its ends.
* `words`: The blank-separated words of a text.
* `splitOn`: The pieces of a text between occurrences of a character.

## Theorems

* `isBlank_of_isWhitespace`: Every ASCII blank is a blank.
-/

namespace RenderFold

namespace Text

/-- Whether a character has the White_Space property. -/
def isBlank (c : Char) : Bool :=
  let n := c.toNat
  (9 ≤ n && n ≤ 13) || n == 0x20 || n == 0x85 || n == 0xA0 || n == 0x1680
    || (0x2000 ≤ n && n ≤ 0x200A) || n == 0x2028 || n == 0x2029 || n == 0x202F
    || n == 0x205F || n == 0x3000

theorem isBlank_of_isWhitespace (c : Char) (h : c.isWhitespace = true) : isBlank c = true := by
  simp only [Char.isWhitespace, Bool.or_eq_true, decide_eq_true_eq] at h
  rcases h with ((rfl | rfl) | rfl) | rfl <;> rfl

/-- The text without blanks at its ends. -/
def trim (text : String) : String :=
  String.ofList (((text.toList.dropWhile isBlank).reverse.dropWhile isBlank).reverse)

/-- Collect words from left to right; `word` holds the current one reversed. -/
def wordsFrom (word : List Char) : List Char → List String
  | [] => if word.isEmpty then [] else [String.ofList word.reverse]
  | c :: rest =>
    if isBlank c then
      if word.isEmpty then wordsFrom [] rest
      else String.ofList word.reverse :: wordsFrom [] rest
    else wordsFrom (c :: word) rest

/-- The words of a text: its maximal runs of characters that are not blank. -/
def words (text : String) : List String := wordsFrom [] text.toList

/-- The pieces of a text between the characters `mark`. There is always one
    more piece than there are marks. -/
def splitOn (mark : Char) : List Char → List (List Char)
  | [] => [[]]
  | c :: rest =>
    if c = mark then [] :: splitOn mark rest
    else match splitOn mark rest with
      | [] => [[c]]
      | piece :: pieces => (c :: piece) :: pieces

/-- The two sides of the first `mark`, if there is one. -/
def cutAt? (mark : Char) (text : List Char) : Option (List Char × List Char) :=
  match text.span (· ≠ mark) with
  | (_, []) => none
  | (left, _ :: right) => some (left, right)

end Text

end RenderFold
