import RenderFold.Proofs.Folding.Compared
import RenderFold.Proofs.Folding.Finished
import RenderFold.Proofs.Folding.LevelForests
import RenderFold.Proofs.Script.Paths

/-!
# Programs and Frames That Are Tended

All render functions that are being folded stand in one arena and are edited
in place. The functions are the roots of trees that have no part in common,
and every edit keeps it so. For that, an edit has to find things as they
were when a frame was opened: the children of an element stand in its list
of children. Whatever is done inside the frame is done below one of the
children, and neither the call nor its arguments are below a child.

## Main definitions

* `Program.Planted`: The functions are trees that have no part in common.
* `Program.Tends`: Programs that differ in a zone, with both in order.
* `Frame.Placed`, `Nested`: Frames and the zones they edit.

## Theorems

* `Program.graft_tends`, `Program.correlate_tends`, `Program.placeAll_tends`:
  What a walk does to its program.
* `Nested.tend`, `Nested.next`: What it does inside its frames.
-/

namespace RenderFold

open Script (Arena Id Node)
open Script.Arena (Closed Extends Forest Grown KeepsForests SameParts Spans added)

namespace Findings

variable {findings : Findings} {id other slot : Id} {change : Finding → Finding} {size size' : Nat}

/-- All indices in findings are below a bound. -/
def Bounded (size : Nat) (findings : Findings) : Prop :=
  ∀ entry ∈ findings, entry.1 < size ∧ ∀ function, entry.2.function = some function →
    function < size

theorem Bounded.mono (h : Bounded size findings) (hle : size ≤ size') :
    Bounded size' findings := fun entry hentry =>
  ⟨Nat.lt_of_lt_of_le (h entry hentry).1 hle, fun function hfunction =>
    Nat.lt_of_lt_of_le ((h entry hentry).2 function hfunction) hle⟩

/-- Findings about an index below the bound, with a change that records no
    function beyond it. -/
theorem Bounded.update (h : Bounded size findings) (hid : id < size)
    (hchange : ∀ finding, (∀ function, finding.function = some function → function < size) →
      ∀ function, (change finding).function = some function → function < size) :
    Bounded size (findings.update id change) := by
  induction findings with
  | nil =>
      intro entry hentry
      rw [List.mem_singleton.mp hentry]
      exact ⟨hid, hchange .nothing fun _ hnone => by cases hnone⟩
  | cons first rest ih =>
      obtain ⟨other, finding⟩ := first
      have hrest : Bounded size rest := fun entry hentry => h entry (List.mem_cons_of_mem _ hentry)
      have hfirst := h (other, finding) List.mem_cons_self
      intro entry hentry
      simp only [Findings.update] at hentry
      split at hentry
      · rcases List.mem_cons.mp hentry with rfl | hentry
        · exact ⟨hfirst.1, hchange finding hfirst.2⟩
        · exact hrest entry hentry
      · rcases List.mem_cons.mp hentry with rfl | hentry
        · exact hfirst
        · exact ih hrest entry hentry

theorem isUnmatched_update (hchange : ∀ finding, finding.isUnmatched = true →
    (change finding).isUnmatched = true) (h : findings.isUnmatched other = true) :
    (findings.update id change).isUnmatched other = true := by
  by_cases heq : other = id
  · subst heq
    rw [isUnmatched] at h ⊢
    obtain ⟨finding, hget, hfinding⟩ := (Option.any_eq_true _ _).mp h
    rw [get?_update_self, hget]
    exact hchange finding hfinding
  · rw [isUnmatched, get?_update_of_ne _ _ heq]
    exact h

theorem function?_update (hchange : ∀ finding, (change finding).function = finding.function) :
    (findings.update id change).function? other = findings.function? other := by
  by_cases heq : other = id
  · rw [heq, function?, get?_update_self, Option.bind_some, hchange, function?]
    cases get? findings id <;> rfl
  · rw [function?, get?_update_of_ne _ _ heq, function?]

theorem isUnmatched_markUnmatched_self : (findings.markUnmatched id).isUnmatched id = true := by
  rw [isUnmatched, markUnmatched, get?_update_self]
  rfl

theorem function?_setFunction_of_ne {function : Id} (h : other ≠ id) :
    (findings.setFunction id function).function? other = findings.function? other := by
  rw [function?, setFunction, get?_update_of_ne _ _ h, function?]

end Findings

namespace Program

variable {zone : Set Id} {program a b c : Program} {slot : Id} {slots ids : List Id}

/-- Every reference in the arena leads to a node, and the functions that are
    recorded are trees that have no part in common, each recorded for one
    expression. -/
structure Planted (program : Program) : Prop where
  valid : Closed program.arena {id | id < program.arena.size}
  bounded : program.findings.Bounded program.arena.size
  forest : ∃ functions, Forest Set.univ program.arena functions ∧
    ∀ slot function, program.findings.function? slot = some function → function ∈ functions
  apart : ∀ slot slot' function, program.findings.function? slot = some function →
    program.findings.function? slot' = some function → slot = slot'

/-- Programs that differ inside a zone and by new expressions. Functions that
    are recorded are new, and a program that is in order stays so. -/
structure Tends (zone : Set Id) (a b : Program) : Prop where
  arena : Arena.EditedIn zone a.arena b.arena
  unmatched : ∀ id, a.findings.isUnmatched id = true → b.findings.isUnmatched id = true
  function : ∀ id function, b.findings.function? id = some function →
    a.findings.function? id = some function ∨ function ∈ added a.arena b.arena
  planted : a.Planted → b.Planted

namespace Tends

theorem trans (hab : Tends zone a b) (hbc : Tends (zone ∪ added a.arena b.arena) b c) :
    Tends zone a c where
  arena := hab.arena.trans hbc.arena
  unmatched id h := hbc.unmatched id (hab.unmatched id h)
  function id function h := by
    rcases hbc.function id function h with h | hnew
    · exact (hab.function id function h).imp_right fun hnew =>
        ⟨hnew.1, Nat.lt_of_lt_of_le hnew.2 hbc.arena.size_le⟩
    · exact Or.inr ⟨Nat.le_trans hab.arena.size_le hnew.1, hnew.2⟩
  planted h := hbc.planted (hab.planted h)

/-- Finding something out about an expression, but not a function. -/
theorem update (hclosed : Closed program.arena zone) (hslot : slot ∈ zone)
    {change : Finding → Finding}
    (hunmatched : ∀ finding, finding.isUnmatched = true → (change finding).isUnmatched = true)
    (hfunction : ∀ finding, (change finding).function = finding.function) :
    Tends zone program { program with findings := program.findings.update slot change } where
  arena := .refl hclosed
  unmatched _ := Findings.isUnmatched_update hunmatched
  function id function h := Or.inl (by rwa [Findings.function?_update hfunction] at h)
  planted h := by
    refine ⟨h.valid, h.bounded.update (hclosed slot hslot).1 fun finding hfinding => ?_, ?_, ?_⟩
    · rw [hfunction]
      exact hfinding
    · simp only [Findings.function?_update hfunction]
      exact h.forest
    · simp only [Findings.function?_update hfunction]
      exact h.apart

theorem markStatic (hclosed : Closed program.arena zone) (hslot : slot ∈ zone) (text : String) :
    Tends zone program (program.markStatic slot text) :=
  update hclosed hslot (fun _ h => h) fun _ => rfl

theorem setText (hclosed : Closed program.arena zone) (hslot : slot ∈ zone) (text : String) :
    Tends zone program (program.setText slot text) :=
  update hclosed hslot (fun _ h => h) fun _ => rfl

theorem markUnmatched (hclosed : Closed program.arena zone) (hslot : slot ∈ zone) :
    Tends zone program (program.markUnmatched slot) :=
  update hclosed hslot (fun _ _ => rfl) fun _ => rfl

theorem recordText (hclosed : Closed program.arena zone) (hslot : slot ∈ zone)
    (static dynamic : Option String) : Tends zone program (program.recordText slot static dynamic) := by
  have hrefl : Tends zone program program :=
    ⟨.refl hclosed, fun _ h => h, fun _ _ h => Or.inl h, fun h => h⟩
  unfold Program.recordText
  split
  · split
    · exact markStatic hclosed hslot _
    · exact hrefl
  · exact hrefl

/-- Editing the arena in a zone, so that every forest stays one. -/
theorem edit {arena : Arena} (hclosed : Closed program.arena zone)
    (hedit : Arena.EditedIn zone program.arena arena) (hkeeps : KeepsForests program.arena arena) :
    Tends zone program { program with arena } where
  arena := hedit
  unmatched _ h := h
  function _ _ h := Or.inl h
  planted h := by
    have hwhole := hedit.widen (fun id hid => (hclosed id hid).1) h.valid
    refine ⟨fun id hid => ?_, h.bounded.mono hkeeps.1, ?_, h.apart⟩
    · have hmem : id ∈ {id | id < program.arena.size} ∪ added program.arena arena :=
        (Nat.lt_or_ge id program.arena.size).imp_right fun hle => ⟨hle, hid⟩
      obtain ⟨hlt, hparts⟩ := hwhole.closed id hmem
      refine ⟨hlt, fun part hpart => ?_⟩
      exact (hparts part hpart).elim (fun hlt => Nat.lt_of_lt_of_le hlt hkeeps.1) fun hnew => hnew.2
    · obtain ⟨functions, ⟨span, hspan, hnodup, -⟩, hmem⟩ := h.forest
      obtain ⟨span', hspan', hnodup'⟩ := hkeeps.2 _ _ hspan hnodup
      exact ⟨functions, ⟨span', hspan', hnodup', fun _ _ => trivial⟩, hmem⟩

end Tends

theorem foldToLiteral_tends (hclosed : Closed program.arena zone) (hslot : slot ∈ zone)
    (text : String) : Tends zone program (program.foldToLiteral slot text) := by
  have hedit := Tends.edit hclosed (Script.Arena.becomeLiteral_editedIn hclosed hslot text)
    (Script.Arena.becomeLiteral_keepsForests program.arena slot text)
  exact hedit.trans (.markStatic hedit.arena.closed (Or.inl hslot) text)

theorem foldLevel_tends (hclosed : Closed program.arena zone) (hslot : slot ∈ zone)
    (hslots : ∀ x ∈ slots, x ∈ zone) (hmatch : program.Matches slot slots) (closing : String) :
    Tends zone program (program.foldLevel slot closing slots) := by
  have hedit := Tends.edit hclosed (foldLevel_editedIn hclosed hslot hslots closing)
    (foldLevel_keepsForests hmatch closing)
  cases hstatic : program.findings.isStatic slot with
  | true =>
      rw [foldLevel, if_pos hstatic] at hedit ⊢
      exact hedit
  | false =>
      rcases foldLevel_cases hstatic closing slots with ⟨opening, content, -, -, hfold⟩ | hsame
      · rw [hfold]
        exact foldToLiteral_tends hclosed hslot _
      · rwa [← hsame] at hedit

theorem foldGroup_tends (hclosed : Closed program.arena zone) (hslot : slot ∈ zone)
    (slots : List Id) : Tends zone program (program.foldGroup slot slots) := by
  have hrefl : Tends zone program program := .edit hclosed (.refl hclosed) (.refl _)
  unfold foldGroup
  split
  · exact hrefl
  · split
    · exact foldToLiteral_tends hclosed hslot _
    · exact hrefl

theorem placeAll_tends {function : Id} (hclosed : Closed program.arena zone)
    (hfunction : function ∈ zone) (calls : List Id) (keepPlaces : Bool) :
    Tends zone program
      { program with
        arena := placeAll (survivors program.arena function calls) keepPlaces program.arena 0
          calls } :=
  .edit hclosed (placeAll_editedIn calls keepPlaces 0 hclosed
    (survivors_mem calls hclosed hfunction)) (placeAll_keepsForests _ _ _ _ _)

theorem Adds.tends (h : program.Adds ids a) (hclosed : Closed program.arena zone) :
    Tends zone program a := by
  have hedit := Tends.edit hclosed (h.edited zone hclosed)
    (.of_sameParts (.of_extends h.keeps))
  rwa [← h.findings] at hedit

/-- The copy of a function is a tree of its own. -/
theorem graft_tends (hclosed : Closed program.arena zone) (hslot : slot ∈ zone)
    (own : RenderFunction) :
    Tends zone program
      ⟨(program.arena.graft own.arena own.root).2,
        program.findings.setFunction slot (program.arena.graft own.arena own.root).1⟩ := by
  obtain ⟨tree, htree, hnodup⟩ := own.isTree
  have hext := Script.Arena.graft_extends program.arena own.arena own.root
  have hgrown : Forest {x | program.arena.size ≤ x} (program.arena.graft own.arena own.root).2
      [(program.arena.graft own.arena own.root).1] :=
    Script.Arena.graft_grown program.arena htree hnodup
  have hedit := Tends.edit hclosed (Script.Arena.graft_editedIn hclosed own.arena own.root)
    (.of_sameParts (.of_extends hext))
  generalize program.arena.graft own.arena own.root = grafted at hext hgrown hedit ⊢
  obtain ⟨function, arena⟩ := grafted
  obtain ⟨hnew, hlt⟩ := hgrown.mem List.mem_cons_self
  have hlt' : slot < arena.size := Nat.lt_of_lt_of_le (hclosed slot hslot).1 hext.1
  have hfunction {id found : Id} (h : (program.findings.setFunction slot function).function? id =
      some found) : (id = slot ∧ found = function) ∨
        program.findings.function? id = some found := by
    by_cases heq : id = slot
    · rw [heq, Findings.function?_setFunction_self] at h
      exact Or.inl ⟨heq, (Option.some.inj h).symm⟩
    · rw [Findings.function?_setFunction_of_ne heq] at h
      exact Or.inr h
  refine ⟨hedit.arena, fun id h => Findings.isUnmatched_update (fun _ h => h) h,
    fun id found h => ?_, fun hbefore => ?_⟩
  · rcases hfunction h with ⟨-, rfl⟩ | h
    · exact Or.inr ⟨hnew, hlt⟩
    · exact Or.inl h
  · have hplanted := hedit.planted hbefore
    obtain ⟨functions, hforest, hmem⟩ := hbefore.forest
    -- The new function is none of those before.
    have hold {id found : Id} (h : program.findings.function? id = some found) :
        found < program.arena.size := (hforest.mem (hmem id found h)).2
    refine ⟨hplanted.valid, hplanted.bounded.update hlt' fun finding _ found hfound => ?_,
      ⟨function :: functions, ?_, fun id found h => ?_⟩, fun id id' found h h' => ?_⟩
    · cases hfound
      exact hlt
    · exact hgrown.beside hforest (.of_extends hext) fun _ _ => trivial
    · rcases hfunction h with ⟨-, rfl⟩ | h
      · exact List.mem_cons_self
      · exact List.mem_cons_of_mem _ (hmem id found h)
    · rcases hfunction h with ⟨rfl, rfl⟩ | hone
      · rcases hfunction h' with ⟨rfl, -⟩ | hother
        · rfl
        · exact absurd (hold hother) (Nat.not_lt_of_le hnew)
      · rcases hfunction h' with ⟨-, rfl⟩ | hother
        · exact absurd (hold hone) (Nat.not_lt_of_le hnew)
        · exact hbefore.apart id id' found hone hother

/-- The children of a call are in its list of children and stay there while
    others work at the indices `away`, or it is known that they could not be
    matched. -/
def Fixed (program : Program) (slot : Id) (slots : List Id) (away : Set Id) : Prop :=
  program.findings.isUnmatched slot = true ∨
    (∃ array, program.arena.childArray? slot = some array ∧
      program.arena.elements? array = some slots) ∧
    slot ∉ away ∧ ∀ x ∈ (program.arena.get slot).children, x ∉ away

namespace Fixed

variable {away away' : Set Id}

theorem isMatch (h : program.Fixed slot slots away) : program.Matches slot slots :=
  h.imp_right fun h => h.1

theorem mono (h : program.Fixed slot slots away) (hsub : away' ⊆ away) :
    program.Fixed slot slots away' :=
  h.imp_right fun ⟨hfound, hslot, hparts⟩ =>
    ⟨hfound, fun hin => hslot (hsub hin), fun x hx hin => hparts x hx (hsub hin)⟩

end Fixed

/-- The children of a call stay where they are when others work elsewhere. -/
theorem Fixed.tend {away inner : Set Id} (h : a.Fixed slot slots away) (htends : Tends inner a b)
    (hvalid : Closed a.arena zone) (hslot : slot ∈ zone) (hsub : inner ⊆ away) :
    b.Fixed slot slots (away ∪ added a.arena b.arena) := by
  rcases h with hunmatched | ⟨⟨array, harray, helements⟩, hout, hparts⟩
  · exact Or.inl (htends.unmatched slot hunmatched)
  · have hlt := hvalid slot hslot
    have hget := htends.arena.same slot hlt.1 fun hin => hout (hsub hin)
    have hpart : ∀ x ∈ (a.arena.get slot).children, b.arena.get x = a.arena.get x := fun x hx =>
      htends.arena.same x (hvalid x (hlt.2 x hx)).1 fun hin => hparts x hx (hsub hin)
    have hmem := Script.Arena.arguments_subset a.arena slot
      (Script.Arena.childArray?_mem_arguments harray)
    refine Or.inr ⟨⟨array, ?_, ?_⟩, ?_, fun x hx => ?_⟩
    · rw [Script.Arena.childArray?_congr hget (fun x hx _ => by rw [hpart x hx])
        fun x hx => by rw [Arena.elements?, hpart x hx, ← Arena.elements?]]
      exact harray
    · rw [Arena.elements?, hpart array hmem, ← Arena.elements?]
      exact helements
    · rintro (hin | hin)
      · exact hout hin
      · exact absurd hlt.1 (Nat.not_lt_of_le hin.1)
    · rw [hget] at hx
      rintro (hin | hin)
      · exact hparts x hx hin
      · exact absurd (hvalid x (hlt.2 x hx)).1 (Nat.not_lt_of_le hin.1)

/-- The expressions of the children of a node are below it, or new. -/
theorem correlate_tends (hclosed : Closed program.arena zone)
    (hslot : Forest zone program.arena [slot]) (count : Nat) :
    Tends zone program (program.correlate slot count).2 ∧
      ∃ span, Spans (program.correlate slot count).2.arena (program.correlate slot count).1 span ∧
        span.Nodup ∧
        (∀ x ∈ span, x ∈ zone ∪ added program.arena (program.correlate slot count).2.arena) ∧
        (program.correlate slot count).2.Fixed slot (program.correlate slot count).1
          {x | x ∈ span} := by
  have hmem : slot ∈ zone := (hslot.mem List.mem_cons_self).1
  unfold correlate
  dsimp only
  split
  · next elements hfound =>
      obtain ⟨hbind, -⟩ := Option.filter_eq_some_iff.mp hfound
      obtain ⟨array, harray, helements⟩ := Option.bind_eq_some_iff.mp hbind
      have hpart := Script.Arena.arguments_subset program.arena slot
        (Script.Arena.childArray?_mem_arguments harray)
      obtain ⟨_, hspan, hnodup, hzone⟩ := hslot
      obtain ⟨inner, hinner, hsub⟩ := Script.Arena.elements_spans hspan hpart helements
      obtain ⟨below, -, hbelow, rfl⟩ := Spans.single_iff.mp hspan
      obtain ⟨hnot, hnodup⟩ := List.nodup_cons.mp hnodup
      rw [List.tail_cons] at hsub
      refine ⟨.edit hclosed (.refl hclosed) (.refl _), inner, hinner, hnodup.sublist hsub,
        fun x hx => Or.inl (hzone x (List.mem_cons_of_mem _ (hsub.subset hx))),
        Or.inr ⟨⟨array, harray, helements⟩, fun hin => hnot (hsub.subset hin), fun x hx hin => ?_⟩⟩
      -- What is below the list is a part of a node below the call, and the parts of the
      -- call itself are not.
      rcases hinner.mem_or_part hin with helement | ⟨y, hy, hpart'⟩
      · refine hbelow.not_part hnodup (hbelow.subset hpart) ?_ hx
        rw [Script.Arena.get_of_elements? helements]
        exact helement
      · exact hbelow.not_part hnodup (hsub.subset hy) hpart' hx
  · have hmark : Tends zone program (program.markUnmatched slot) := .markUnmatched hclosed hmem
    have hadds := (pushHoles_adds count (program.markUnmatched slot)).1
    have hclosed' := hmark.arena.closed
    obtain ⟨span, hspan, hnodup, hnew⟩ := hadds.grown
    refine ⟨hmark.trans (hadds.tends hclosed'), span, hspan, hnodup,
      fun x hx => Or.inr ⟨hnew x hx, hspan.lt_size x hx⟩, Or.inl ?_⟩
    rw [hadds.findings]
    exact Findings.isUnmatched_markUnmatched_self

/-- The expression that a function returns is below it, or new. -/
theorem locateRoot_tends {function : Id} (hclosed : Closed program.arena zone)
    (hfunction : Forest zone program.arena [function]) :
    Tends zone program (program.locateRoot function).2 ∧
      Forest (zone ∪ added program.arena (program.locateRoot function).2.arena)
        (program.locateRoot function).2.arena [(program.locateRoot function).1] := by
  unfold locateRoot
  split
  · next found hfound =>
      obtain ⟨span, hspan, hnodup, hzone⟩ := hfunction
      obtain ⟨inner, hinner, hsub⟩ := Script.Arena.singleReturn?_spans hspan hfound
      exact ⟨.edit hclosed (.refl hclosed) (.refl _), inner, hinner, hnodup.sublist hsub,
        fun x hx => Or.inl (hzone x (hsub.subset hx))⟩
  · have hmark : Tends zone program (program.markUnmatched function) :=
      .markUnmatched hclosed (hfunction.mem List.mem_cons_self).1
    have hadds := (program.markUnmatched function).pushHole_adds
    obtain ⟨span, hspan, hnodup, hnew⟩ := hadds.grown
    exact ⟨hmark.trans (hadds.tends hmark.arena.closed), span, hspan, hnodup,
      fun x hx => Or.inr ⟨hnew x hx, hspan.lt_size x hx⟩⟩

end Program

namespace Frame

/-- The expression that produces the node, and that of the root of a
    component. -/
def own : Frame → List Id
  | element slot _ _ => [slot]
  | group slot _ => [slot]
  | component boundary _ => [boundary.slot, boundary.rootSlot]

/-- A frame and its zone. `inner` is the zone of what goes on inside it. -/
structure Placed (program : Program) (inner zone : Set Id) (frame : Frame) : Prop where
  closed : Closed program.arena zone
  inner_sub : inner ⊆ zone
  own_mem : ∀ x ∈ frame.own, x ∈ zone
  slots_mem : ∀ x ∈ frame.pairs.slots, x ∈ zone
  left : ∃ span, Spans program.arena (frame.pairs.left.map (·.slot)) span ∧ span.Nodup ∧
    (∀ x ∈ span, x ∈ zone ∧ x ∉ inner) ∧
    ∀ slot closing pairs, frame = .element slot closing pairs →
      program.Fixed slot pairs.slots {x | x ∈ inner ∨ x ∈ span}
  function_mem : ∀ boundary pairs, frame = .component boundary pairs → ∀ function,
    program.findings.function? boundary.slot = some function → function ∈ zone

variable {program after : Program} {inner inner' zone : Set Id} {frame : Frame}

theorem Placed.shrink (h : Placed program inner zone frame) (hsub : inner' ⊆ inner) :
    Placed program inner' zone frame where
  closed := h.closed
  inner_sub := hsub.trans h.inner_sub
  own_mem := h.own_mem
  slots_mem := h.slots_mem
  left := by
    obtain ⟨span, hspan, hnodup, hout, hfixed⟩ := h.left
    exact ⟨span, hspan, hnodup, fun x hx => ⟨(hout x hx).1, fun hin => (hout x hx).2 (hsub hin)⟩,
      fun slot closing pairs hframe => (hfixed slot closing pairs hframe).mono
        fun x hx => hx.imp_left fun hin => hsub hin⟩
  function_mem := h.function_mem

/-- What is done inside a frame leaves it as it is. -/
theorem Placed.tend (h : Placed program inner zone frame) (htends : program.Tends inner after) :
    Placed after (inner ∪ added program.arena after.arena)
      (zone ∪ added program.arena after.arena) frame where
  closed := (htends.arena.widen h.inner_sub h.closed).closed
  inner_sub := Set.union_subset_union_left _ h.inner_sub
  own_mem x hx := Or.inl (h.own_mem x hx)
  slots_mem x hx := Or.inl (h.slots_mem x hx)
  left := by
    obtain ⟨span, hspan, hnodup, hout, hfixed⟩ := h.left
    refine ⟨span, htends.arena.spans hspan fun x hx => (hout x hx).2, hnodup, fun x hx =>
      ⟨Or.inl (hout x hx).1, ?_⟩, fun slot closing pairs hframe => ?_⟩
    · rintro (hin | hin)
      · exact (hout x hx).2 hin
      · exact absurd (hspan.lt_size x hx) (Nat.not_lt_of_le hin.1)
    · have hslot : slot ∈ zone := h.own_mem slot (by rw [hframe]; exact List.mem_cons_self)
      refine ((hfixed slot closing pairs hframe).tend htends h.closed hslot fun x hx =>
        Or.inl hx).mono fun x hx => ?_
      rcases hx with (hin | hnew) | hspan
      · exact Or.inl (Or.inl hin)
      · exact Or.inr hnew
      · exact Or.inl (Or.inr hspan)
  function_mem boundary pairs hframe function hfunction :=
    (htends.function boundary.slot function hfunction).imp_left
      (h.function_mem boundary pairs hframe function)

theorem own_withPairs (frame : Frame) (pairs : Pairs) : (frame.withPairs pairs).own = frame.own := by
  cases frame <;> rfl

/-- The next child of a frame is a tree, and is the zone of what goes on inside
    the frame from then on. -/
theorem Placed.next {pair : Pair} {left : Pairs} (h : Placed program inner zone frame)
    (hnext : frame.pairs.next? = some (pair, left)) :
    ∃ span, Spans program.arena [pair.slot] span ∧ span.Nodup ∧
      Placed program {x | x ∈ span} zone (frame.withPairs left) := by
  obtain ⟨hleft, hslots⟩ := next?_eq_some hnext
  obtain ⟨whole, hspans, hnodup, hout, hfixed⟩ := h.left
  rw [hleft, List.map_cons] at hspans
  obtain ⟨span, later, hspan, hlater, rfl⟩ := hspans.of_cons
  obtain ⟨hnodup, hnodup', hdisjoint⟩ := List.nodup_append.mp hnodup
  refine ⟨span, hspan, hnodup, h.closed, fun x hx => (hout x (List.mem_append_left _ hx)).1, ?_, ?_,
    ⟨later, ?_, hnodup', fun x hx => ⟨(hout x (List.mem_append_right _ hx)).1, fun hin =>
      hdisjoint x hin x hx rfl⟩, fun slot closing pairs hframe => ?_⟩, ?_⟩
  · rw [own_withPairs]
    exact h.own_mem
  · rw [pairs_withPairs, ← hslots]
    exact h.slots_mem
  · rw [pairs_withPairs]
    exact hlater
  · cases frame with
    | element slot' closing' pairs' =>
        cases hframe
        have hfixed := hfixed slot closing pairs' rfl
        rw [show pairs'.slots = left.slots from hslots] at hfixed
        exact hfixed.mono fun x hx => Or.inr (List.mem_append.mpr hx)
    | group slot' pairs' => cases hframe
    | component boundary pairs' => cases hframe
  · intro boundary pairs hframe
    cases frame with
    | element slot' closing' pairs' => cases hframe
    | group slot' pairs' => cases hframe
    | component boundary' pairs' =>
        cases hframe
        exact h.function_mem boundary pairs' rfl

end Frame

/-- Frames, each inside the next. `inner` is the zone of what goes on inside
    the innermost one. -/
inductive Nested (program : Program) : Set Id → List Frame → Prop where
  | nil {inner : Set Id} : Nested program inner []
  | cons {inner zone : Set Id} {frame : Frame} {rest : List Frame}
      (hframe : frame.Placed program inner zone) (hrest : Nested program zone rest) :
      Nested program inner (frame :: rest)

namespace Nested

variable {program after : Program} {inner inner' : Set Id} {frames rest : List Frame}
  {frame : Frame}

theorem shrink (h : Nested program inner frames) (hsub : inner' ⊆ inner) :
    Nested program inner' frames := by
  cases h with
  | nil => exact .nil
  | cons hframe hrest => exact .cons (hframe.shrink hsub) hrest

/-- What is done inside the innermost frame leaves all frames as they are. -/
theorem tend (h : Nested program inner frames) (htends : program.Tends inner after) :
    Nested after (inner ∪ added program.arena after.arena) frames := by
  induction h with
  | nil => exact .nil
  | cons hframe hrest ih =>
      exact .cons (hframe.tend htends) (ih ⟨htends.arena.widen hframe.inner_sub hframe.closed,
        htends.unmatched, htends.function, htends.planted⟩)

theorem next {pair : Pair} {left : Pairs} (h : Nested program inner (frame :: rest))
    (hnext : frame.pairs.next? = some (pair, left)) :
    ∃ span, Spans program.arena [pair.slot] span ∧ span.Nodup ∧
      Nested program {x | x ∈ span} (frame.withPairs left :: rest) := by
  cases h with
  | cons hframe hrest =>
      obtain ⟨span, hspan, hnodup, hplaced⟩ := hframe.next hnext
      exact ⟨span, hspan, hnodup, .cons hplaced hrest⟩

end Nested

end RenderFold
