import RenderFold.Proofs.Folding.Reach

/-!
# Findings and the Record

What the findings say about a walk, in terms of what was recorded on the way.
The markup of a static expression is what every pair that was compared at the
expression folds into, with the resolutions that were recorded after it. A
text that is found for any other expression opens the static side of a pair
that was compared there.

Markup becomes known when a pair has been compared with all that is below it,
which may be long after its own comparison was recorded. What is owed in the
meantime is kept as a promise: once it is known what is left to be compared
folds into, it is known what the pairs at the expression fold into.

## Main definitions

* `View.opening?`: The text that opens a node.
* `Owes`: What pairs fold into once the rest is known.
* `Recorded`: What findings say about the record.

## Theorems

* `Recorded.mark`, `Recorded.setText`: More is found.
* `Recorded.record`: More is recorded.
-/

namespace RenderFold

open Script (Id)

/-- The text that opens a node: the start tag of an element, and the markup
    before the children of a fragment. -/
def View.opening? (registry : Registry) (context : TagContext) : View → Option String
  | element tag data _ => some (registry.startTag tag data context)
  | fragment opening _ _ => some opening
  | _ => none

namespace Findings

variable {findings : Findings} {id other : Id} {text : String}

theorem literal?_eq_some_iff : findings.literal? id = some text ↔
    findings.isStatic id = true ∧ findings.text? id = some text := by
  unfold literal?
  cases findings.isStatic id <;> simp

theorem literal?_eq_none (h : findings.isStatic id = false) : findings.literal? id = none := by
  rw [literal?, h]
  rfl

theorem text?_markStatic_self : (findings.markStatic id text).text? id = some text := by
  rw [text?, markStatic, get?_update_self]
  rfl

theorem isStatic_markStatic_self : (findings.markStatic id text).isStatic id = true := by
  rw [isStatic, markStatic, get?_update_self]
  rfl

theorem text?_markStatic_of_ne (h : other ≠ id) :
    (findings.markStatic id text).text? other = findings.text? other := by
  rw [text?, markStatic, get?_update_of_ne _ _ h, text?]

theorem isStatic_markStatic_of_ne (h : other ≠ id) :
    (findings.markStatic id text).isStatic other = findings.isStatic other := by
  rw [isStatic, markStatic, get?_update_of_ne _ _ h, isStatic]

theorem text?_setText_self : (findings.setText id text).text? id = some text := by
  rw [text?, setText, get?_update_self]
  rfl

theorem text?_setText_of_ne (h : other ≠ id) :
    (findings.setText id text).text? other = findings.text? other := by
  rw [text?, setText, get?_update_of_ne _ _ h, text?]

/-- A change that leaves the markup and the static expressions as they are. -/
structure SameTexts (a b : Findings) : Prop where
  text : ∀ id, b.text? id = a.text? id
  isStatic : ∀ id, b.isStatic id = a.isStatic id

theorem SameTexts.refl (a : Findings) : SameTexts a a := ⟨fun _ => rfl, fun _ => rfl⟩

theorem SameTexts.trans {a b c : Findings} (hab : SameTexts a b) (hbc : SameTexts b c) :
    SameTexts a c :=
  ⟨fun id => (hbc.text id).trans (hab.text id), fun id => (hbc.isStatic id).trans (hab.isStatic id)⟩

theorem SameTexts.literal? {a b : Findings} (h : SameTexts a b) (id : Id) :
    b.literal? id = a.literal? id := by
  rw [Findings.literal?, Findings.literal?, h.text, h.isStatic]

theorem sameTexts_update {change : Finding → Finding}
    (htext : ∀ finding, (change finding).text = finding.text)
    (hstatic : ∀ finding, (change finding).isStatic = finding.isStatic) :
    SameTexts findings (update findings id change) := by
  refine ⟨fun other => ?_, fun other => ?_⟩
  · by_cases h : other = id
    · rw [h, text?, get?_update_self, Option.bind_some, htext, text?]
      cases get? findings id <;> rfl
    · rw [text?, get?_update_of_ne _ _ h, text?]
  · by_cases h : other = id
    · rw [h, isStatic, get?_update_self, Option.any_some, hstatic, isStatic]
      cases get? findings id <;> rfl
    · rw [isStatic, get?_update_of_ne _ _ h, isStatic]

theorem function?_markUnmatched :
    (findings.markUnmatched id).function? other = findings.function? other := by
  by_cases h : other = id
  · rw [h, function?, markUnmatched, get?_update_self, Option.bind_some, function?]
    cases get? findings id <;> rfl
  · rw [function?, markUnmatched, get?_update_of_ne _ _ h, function?]

theorem function?_setFunction_self {function : Id} :
    (findings.setFunction id function).function? id = some function := by
  rw [function?, setFunction, get?_update_self]
  rfl

theorem sameTexts_markUnmatched : SameTexts findings (findings.markUnmatched id) :=
  sameTexts_update (fun _ => rfl) fun _ => rfl

theorem sameTexts_setFunction {function : Id} :
    SameTexts findings (findings.setFunction id function) :=
  sameTexts_update (fun _ => rfl) fun _ => rfl

/-- A text that opens an expression makes it no more static than it is. -/
theorem isStatic_setText : (findings.setText id text).isStatic other = findings.isStatic other := by
  by_cases h : other = id
  · rw [h, isStatic, setText, get?_update_self, Option.any_some, isStatic]
    cases get? findings id <;> rfl
  · rw [isStatic, setText, get?_update_of_ne _ _ h, isStatic]

end Findings

namespace Event

variable {events events' : List Event}

theorem answers_append : answers (events ++ events') = answers events ++ answers events' :=
  List.filterMap_append ..

theorem slots_append : slots (events ++ events') = slots events ++ slots events' :=
  List.filterMap_append ..

theorem slot_mem_slots {pair : Pair} {active : Option (Twin Instance)}
    (h : compared pair active ∈ events) : pair.slot ∈ slots events :=
  List.mem_filterMap.mpr ⟨_, h, rfl⟩

end Event

section Record

variable (engine : Engine) (functions : Component → Option RenderFunction) (comments : Bool)

/-- Every pair that was compared at an expression folds as soon as the goal is
    met, with the resolutions recorded since and those that the goal takes. -/
def Owes (events : List Event) (slot : Id) (goal : List Settled → String → Prop) : Prop :=
  ∀ before pair active after, events = before ++ .compared pair active :: after →
    pair.slot = slot → ∀ answers text, goal answers text →
      Folds engine functions comments active pair.context [pair.view]
        (Event.answers after ++ answers) text

/-- What findings say about a record. -/
structure Recorded (events : List Event) (findings : Findings) : Prop where
  /-- The markup of a static expression is what its pairs fold into. -/
  folds : ∀ slot text, findings.literal? slot = some text →
    ∀ before pair active after, events = before ++ .compared pair active :: after →
      pair.slot = slot → ∃ mine later, after = mine ++ later ∧
        Folds engine functions comments active pair.context [pair.view] (Event.answers mine) text
  /-- Any other text opens the static side of a pair. -/
  opens : ∀ slot text, findings.isStatic slot = false → findings.text? slot = some text →
    ∃ pair active, .compared pair active ∈ events ∧ pair.slot = slot ∧
      pair.view.static.opening? engine.registry pair.context.static = some text
  /-- A static expression has markup. -/
  text_of_static : ∀ slot, findings.isStatic slot = true → ∃ text, findings.text? slot = some text
  /-- Nothing is found where no pair was compared. -/
  unknown : ∀ slot, slot ∉ Event.slots events →
    findings.text? slot = none ∧ findings.isStatic slot = false

variable {engine functions comments} {events : List Event} {findings findings' : Findings}
  {slot : Id} {goal goal' : List Settled → String → Prop} {text : String}

theorem Owes.weaken (h : Owes engine functions comments events slot goal)
    (hgoal : ∀ answers text, goal' answers text → goal answers text) :
    Owes engine functions comments events slot goal' :=
  fun before pair active after hevents hslot answers text hmet =>
    h before pair active after hevents hslot answers text (hgoal answers text hmet)

/-- Where the last event of a list is. -/
theorem append_singleton_eq {α : Type} {xs before after : List α} {x y : α}
    (h : xs ++ [x] = before ++ y :: after) :
    (after = [] ∧ xs = before ∧ x = y) ∨
      ∃ rest, after = rest ++ [x] ∧ xs = before ++ y :: rest := by
  rcases List.eq_nil_or_concat after with rfl | ⟨rest, last, rfl⟩
  · obtain ⟨hxs, hx⟩ := List.append_inj' h rfl
    exact Or.inl ⟨rfl, hxs, (List.cons.inj hx).1⟩
  · rw [List.concat_eq_append, ← List.cons_append, ← List.append_assoc] at h
    obtain ⟨hxs, hx⟩ := List.append_inj' h rfl
    cases (List.cons.inj hx).1
    exact Or.inr ⟨rest, List.concat_eq_append .., hxs⟩

/-- After async components have resolved, what is owed takes one resolution
    less. -/
theorem Owes.settled {both : Settled} (h : Owes engine functions comments events slot goal)
    (hgoal : ∀ answers text, goal' answers text → goal (both :: answers) text) :
    Owes engine functions comments (events ++ [.settled both]) slot goal' := by
  intro before pair active after hevents hslot answers text hmet
  rcases append_singleton_eq hevents with ⟨-, -, hlast⟩ | ⟨rest, rfl, hprefix⟩
  · cases hlast
  · have hfolds := h before pair active rest hprefix hslot _ _ (hgoal answers text hmet)
    rwa [Event.answers_append, List.append_assoc]

/-- A pair that is compared owes what it folds into. -/
theorem Owes.compared {pair : Pair} {active : Option (Twin Instance)}
    (h : Owes engine functions comments events slot goal)
    (hgoal : ∀ answers text, Folds engine functions comments active pair.context [pair.view]
      answers text → goal answers text) :
    Owes engine functions comments (events ++ [.compared pair active]) slot
      (Folds engine functions comments active pair.context [pair.view]) := by
  intro before other around after hevents hslot answers text hmet
  rcases append_singleton_eq hevents with ⟨rfl, -, hlast⟩ | ⟨rest, rfl, hprefix⟩
  · cases hlast
    exact hmet
  · have hfolds := h before other around rest hprefix hslot _ _ (hgoal answers text hmet)
    rwa [Event.answers_append, List.append_assoc]

/-- What was recorded elsewhere since takes part in what is owed. -/
theorem Owes.append {later : List Event} (h : Owes engine functions comments events slot goal)
    (hlater : slot ∉ Event.slots later)
    (hgoal : ∀ answers text, goal' answers text → goal (Event.answers later ++ answers) text) :
    Owes engine functions comments (events ++ later) slot goal' := by
  intro before pair active after hevents hslot answers text hmet
  -- The pair was compared before what was recorded since, as that has nothing to
  -- do with its expression.
  rcases List.append_eq_append_iff.mp hevents with ⟨middle, -, hlater'⟩ | ⟨middle, hfirst, hlater'⟩
  · rw [hlater', ← hslot] at hlater
    exact absurd (Event.slot_mem_slots (List.mem_append_right _ List.mem_cons_self)) hlater
  · cases middle with
    | nil =>
        rw [List.nil_append] at hlater'
        rw [← hlater', ← hslot] at hlater
        exact absurd (Event.slot_mem_slots List.mem_cons_self) hlater
    | cons event middle =>
        rw [List.cons_append] at hlater'
        obtain ⟨rfl, rfl⟩ := List.cons.inj hlater'
        have hfolds := h before pair active middle hfirst hslot _ _ (hgoal answers text hmet)
        rwa [Event.answers_append, List.append_assoc]

/-- Nothing is owed where no pair was compared. -/
theorem Owes.of_not_mem (h : slot ∉ Event.slots events) :
    Owes engine functions comments events slot goal := by
  intro before pair active after hevents hslot
  rw [hevents, ← hslot] at h
  exact absurd (Event.slot_mem_slots (List.mem_append_right _ List.mem_cons_self)) h

namespace Recorded

theorem empty : Recorded engine functions comments [] [] where
  folds _ _ h := by cases h
  opens _ _ _ h := by cases h
  text_of_static _ h := by cases h
  unknown _ _ := ⟨rfl, rfl⟩

/-- A change that leaves the markup as it is. -/
theorem same (h : Recorded engine functions comments events findings)
    (hsame : findings.SameTexts findings') :
    Recorded engine functions comments events findings' where
  folds slot text hliteral := h.folds slot text (by rwa [hsame.literal?] at hliteral)
  opens slot text hstatic htext :=
    h.opens slot text (by rwa [hsame.isStatic] at hstatic) (by rwa [hsame.text] at htext)
  text_of_static slot hstatic := by
    rw [hsame.isStatic] at hstatic
    rw [hsame.text]
    exact h.text_of_static slot hstatic
  unknown slot hslot := by
    rw [hsame.text, hsame.isStatic]
    exact h.unknown slot hslot

/-- A promise is kept: the expression is static. -/
theorem mark (h : Recorded engine functions comments events findings)
    (howes : Owes engine functions comments events slot goal) (hgoal : goal [] text)
    (hslot : slot ∈ Event.slots events) :
    Recorded engine functions comments events (findings.markStatic slot text) where
  folds other text' hliteral before pair active after hevents hpair := by
    obtain ⟨hstatic, htext⟩ := Findings.literal?_eq_some_iff.mp hliteral
    -- At the expression itself, what was owed is due: nothing is left to compare.
    -- Elsewhere nothing changes.
    by_cases hother : other = slot
    · subst hother
      rw [Findings.text?_markStatic_self] at htext
      cases htext
      have hfolds := howes before pair active after hevents hpair [] text hgoal
      rw [List.append_nil] at hfolds
      exact ⟨after, [], (List.append_nil _).symm, hfolds⟩
    · rw [Findings.isStatic_markStatic_of_ne hother] at hstatic
      rw [Findings.text?_markStatic_of_ne hother] at htext
      exact h.folds other text' (Findings.literal?_eq_some_iff.mpr ⟨hstatic, htext⟩) before pair
        active after hevents hpair
  opens other text' hstatic htext := by
    by_cases hother : other = slot
    · rw [hother, Findings.isStatic_markStatic_self] at hstatic
      cases hstatic
    · rw [Findings.isStatic_markStatic_of_ne hother] at hstatic
      rw [Findings.text?_markStatic_of_ne hother] at htext
      exact h.opens other text' hstatic htext
  text_of_static other hstatic := by
    by_cases hother : other = slot
    · exact ⟨text, by rw [hother, Findings.text?_markStatic_self]⟩
    · rw [Findings.isStatic_markStatic_of_ne hother] at hstatic
      rw [Findings.text?_markStatic_of_ne hother]
      exact h.text_of_static other hstatic
  unknown other hother := by
    have hne : other ≠ slot := fun heq => hother (heq ▸ hslot)
    rw [Findings.isStatic_markStatic_of_ne hne, Findings.text?_markStatic_of_ne hne]
    exact h.unknown other hother

/-- A text is found that opens a pair. -/
theorem setText {pair : Pair} {active : Option (Twin Instance)}
    (h : Recorded engine functions comments events findings)
    (hpair : .compared pair active ∈ events) (hstatic : findings.isStatic pair.slot = false)
    (htext : pair.view.static.opening? engine.registry pair.context.static = some text) :
    Recorded engine functions comments events (findings.setText pair.slot text) where
  folds other text' hliteral := by
    -- The expression is not static, so no static expression gets another text.
    obtain ⟨hother, htext'⟩ := Findings.literal?_eq_some_iff.mp hliteral
    rw [Findings.isStatic_setText] at hother
    have hne : other ≠ pair.slot := fun heq => by rw [heq, hstatic] at hother; cases hother
    rw [Findings.text?_setText_of_ne hne] at htext'
    exact h.folds other text' (Findings.literal?_eq_some_iff.mpr ⟨hother, htext'⟩)
  opens other text' hother htext' := by
    rw [Findings.isStatic_setText] at hother
    by_cases hne : other = pair.slot
    · rw [hne, Findings.text?_setText_self] at htext'
      cases htext'
      exact ⟨pair, active, hpair, hne.symm, htext⟩
    · rw [Findings.text?_setText_of_ne hne] at htext'
      exact h.opens other text' hother htext'
  text_of_static other hother := by
    rw [Findings.isStatic_setText] at hother
    have hne : other ≠ pair.slot := fun heq => by rw [heq, hstatic] at hother; cases hother
    rw [Findings.text?_setText_of_ne hne]
    exact h.text_of_static other hother
  unknown other hother := by
    have hne : other ≠ pair.slot := fun heq => hother (heq ▸ Event.slot_mem_slots hpair)
    rw [Findings.isStatic_setText, Findings.text?_setText_of_ne hne]
    exact h.unknown other hother

/-- One more event is recorded. If it is a pair, its expression is not static
    yet, so nothing is said about it. -/
theorem record (h : Recorded engine functions comments events findings) {event : Event}
    (hevent : ∀ pair active, event = .compared pair active →
      findings.isStatic pair.slot = false) :
    Recorded engine functions comments (events ++ [event]) findings where
  folds slot text hliteral before pair active after hevents hpair := by
    rcases append_singleton_eq hevents with ⟨-, -, hlast⟩ | ⟨rest, rfl, hprefix⟩
    · rw [← hpair, Findings.literal?_eq_none (hevent pair active hlast)] at hliteral
      cases hliteral
    · obtain ⟨mine, later, rfl, hfolds⟩ :=
        h.folds slot text hliteral before pair active rest hprefix hpair
      exact ⟨mine, later ++ [event], List.append_assoc .., hfolds⟩
  opens slot text hstatic htext := by
    obtain ⟨pair, active, hpair, hrest⟩ := h.opens slot text hstatic htext
    exact ⟨pair, active, List.mem_append_left _ hpair, hrest⟩
  text_of_static := h.text_of_static
  unknown slot hslot := h.unknown slot fun hmem => hslot (by
    rw [Event.slots_append]
    exact List.mem_append_left _ hmem)

/-- Async components have resolved. -/
theorem settled (h : Recorded engine functions comments events findings) (both : Settled) :
    Recorded engine functions comments (events ++ [.settled both]) findings :=
  h.record fun _ _ heq => by cases heq

/-- A pair is compared at an expression that is not static. -/
theorem compared {pair : Pair} (h : Recorded engine functions comments events findings)
    (hstatic : findings.isStatic pair.slot = false) (active : Option (Twin Instance)) :
    Recorded engine functions comments (events ++ [.compared pair active]) findings :=
  h.record fun _ _ heq => by
    cases heq
    exact hstatic

end Recorded

end Record

end RenderFold
