import RenderFold.Script.Arena

/-!
# Findings

What has been found out about the expressions of the render functions that
are being folded. Findings are kept beside the arena, under the index of the
expression they are about, and are added one by one: a static expression is
never found not to be one later.

A text is recorded for two kinds of expression. For a static one it is all
the markup the expression produces. For an element whose children are still
to be folded it is the start tag, and for markup around children it is the
markup that opens it.

## Main definitions

* `Finding`: What is known about one expression.
* `Findings`: What is known about each.
* `Findings.literal?`: The markup of a static expression.

## Theorems

* `Findings.get?_update_self`, `Findings.get?_update_of_ne`: What recording
  changes.
-/

namespace RenderFold

/-- What is known about one expression. -/
structure Finding where
  /-- Its markup if it is static, and the markup that opens it otherwise. -/
  text : Option String
  /-- It produces the same markup for every request. -/
  isStatic : Bool
  /-- The parts it is made of could not be matched with what it produces. -/
  isUnmatched : Bool
  /-- The render function of the component it uses. -/
  function : Option Script.Id
  deriving DecidableEq, Inhabited

/-- Nothing is known. -/
def Finding.nothing : Finding := ⟨none, false, false, none⟩

/-- What is known about each expression, by index. -/
abbrev Findings := List (Script.Id × Finding)

namespace Findings

open Script (Id)

/-- What is known about an expression. -/
def get? : Findings → Id → Option Finding
  | [], _ => none
  | (other, finding) :: rest, id => if other = id then some finding else get? rest id

/-- Change what is known about an expression, about which nothing may be
    known so far. -/
def update (findings : Findings) (id : Id) (change : Finding → Finding) : Findings :=
  match findings with
  | [] => [(id, change .nothing)]
  | (other, finding) :: rest =>
    if other = id then (other, change finding) :: rest
    else (other, finding) :: update rest id change

/-- The text recorded for an expression. -/
def text? (findings : Findings) (id : Id) : Option String := (get? findings id).bind (·.text)

/-- Whether an expression is known to be static. -/
def isStatic (findings : Findings) (id : Id) : Bool := (get? findings id).any (·.isStatic)

/-- Whether the parts of an expression could not be matched. -/
def isUnmatched (findings : Findings) (id : Id) : Bool := (get? findings id).any (·.isUnmatched)

/-- The markup of an expression that is known to be static. -/
def literal? (findings : Findings) (id : Id) : Option String :=
  if isStatic findings id then text? findings id else none

/-- The render function of the component that an expression uses. -/
def function? (findings : Findings) (id : Id) : Option Id := (get? findings id).bind (·.function)

/-- Record that an expression is static, with its markup. -/
def markStatic (findings : Findings) (id : Id) (text : String) : Findings :=
  update findings id fun finding => { finding with text := some text, isStatic := true }

/-- Record that the parts of an expression could not be matched. -/
def markUnmatched (findings : Findings) (id : Id) : Findings :=
  update findings id fun finding => { finding with isUnmatched := true }

/-- Record the markup that opens an expression. -/
def setText (findings : Findings) (id : Id) (text : String) : Findings :=
  update findings id fun finding => { finding with text := some text }

/-- Record the render function of the component that an expression uses. -/
def setFunction (findings : Findings) (id function : Id) : Findings :=
  update findings id fun finding => { finding with function := some function }

theorem get?_update_self (findings : Findings) (id : Id) (change : Finding → Finding) :
    get? (update findings id change) id =
      some (change ((get? findings id).getD .nothing)) := by
  induction findings with
  | nil => simp only [update, get?, if_true, Option.getD]
  | cons entry rest ih =>
      obtain ⟨other, finding⟩ := entry
      by_cases h : other = id
      · simp only [update, get?, h, if_true, Option.getD]
      · simp only [update, get?, h, if_false, ih]

theorem get?_update_of_ne (findings : Findings) {id other : Id} (change : Finding → Finding)
    (hne : other ≠ id) : get? (update findings id change) other = get? findings other := by
  induction findings with
  | nil => simp only [update, get?, if_neg (Ne.symm hne)]
  | cons entry rest ih =>
      obtain ⟨name, finding⟩ := entry
      by_cases h : name = id
      · subst h
        simp only [update, get?, if_true, if_neg (Ne.symm hne)]
      · simp only [update, get?, h, if_false, ih]

end Findings

end RenderFold
